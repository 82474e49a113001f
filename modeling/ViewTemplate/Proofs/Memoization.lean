import ViewTemplate.Compile.Functions

/-! # Answers that are kept

A compiler that keeps its answers gives every request the fresh answer to the first request with the
same key. The key joins the delimiters and the template without telling where one ends and the next
starts, so that requests with different delimiters or templates may share one.
-/

open List Option

namespace ViewTemplate

universe u

/-- A request to a compiler that keeps its answers. All other overrides are shared by the requests of
a history. -/
structure Request where
  template : String
  delimiters : Option Delimiters := none
  deriving DecidableEq

namespace Request

/-- The overrides of a request, given those that are shared. -/
def overrides (shared : Overrides) (r : Request) : Overrides :=
  { shared with config := { shared.config with delimiters := r.delimiters } }

/-- What the answer to a request is kept by. -/
def key (r : Request) : String := Memo.key r.template (r.overrides {})

theorem key_overrides (shared : Overrides) (r : Request) :
    Memo.key r.template (r.overrides shared) = r.key := rfl

/-- The first request of a history with the key of the given one. -/
def first (history : List Request) (r : Request) : Request :=
  (history.find? fun s => s.key = r.key).getD r

theorem key_first (history : List Request) (r : Request) : (r.first history).key = r.key := by
  rw [first]
  cases hfind : history.find? fun s => s.key = r.key with
  | none => rfl
  | some s =>
    have hs := find?_some hfind
    exact of_decide_eq_true hs

theorem first_mem {history : List Request} {r : Request} (h : r ∈ history) :
    r.first history ∈ history := by
  rw [first]
  cases hfind : history.find? fun s => s.key = r.key with
  | none => exact h
  | some s => exact mem_of_find?_eq_some hfind

/-- Conditions under which two requests with the same key are the same request: their delimiters are
the same, or have openings without a comma and closings of the same length; and a template without
delimiters does not start with the delimiters of the other request. -/
def ToldApart (r s : Request) : Prop :=
  match r.delimiters, s.delimiters with
  | none, none => True
  | some d, none => ¬ (d.opening ++ "," ++ d.closing).toList <+: s.template.toList
  | none, some e => ¬ (e.opening ++ "," ++ e.closing).toList <+: r.template.toList
  | some d, some e =>
    d = e ∨ (',' ∉ d.opening.toList ∧ ',' ∉ e.opening.toList ∧
      d.closing.toList.length = e.closing.toList.length)

/-- The part before the first comma is told by the text. -/
theorem eq_of_append_comma {a b s t : List Char} (ha : ',' ∉ a) (hb : ',' ∉ b)
    (h : a ++ ',' :: s = b ++ ',' :: t) : a = b ∧ s = t := by
  induction a generalizing b with
  | nil =>
    cases b with
    | nil => exact ⟨rfl, (List.cons.inj h).2⟩
    | cons c b =>
      obtain ⟨rfl, -⟩ := List.cons.inj h
      exact absurd mem_cons_self hb
  | cons c a ih =>
    cases b with
    | nil =>
      obtain ⟨rfl, -⟩ := List.cons.inj h
      exact absurd mem_cons_self ha
    | cons d b =>
      obtain ⟨rfl, htail⟩ := List.cons.inj h
      obtain ⟨rfl, hst⟩ := ih (fun hc => ha (mem_cons_of_mem _ hc))
        (fun hc => hb (mem_cons_of_mem _ hc)) htail
      exact ⟨rfl, hst⟩

/-- Requests that are told apart have different keys. -/
theorem ToldApart.eq {r s : Request} (h : r.ToldApart s) (hkey : r.key = s.key) : r = s := by
  obtain ⟨t, d⟩ := r
  obtain ⟨u, e⟩ := s
  have hkey := congrArg String.toList hkey
  cases d with
  | none =>
    cases e with
    | none => exact congrArg (Request.mk · none) (String.toList_inj.mp hkey)
    | some e =>
      refine absurd ⟨u.toList, ?_⟩ h
      simpa [key, Memo.key, overrides] using hkey.symm
  | some d =>
    cases e with
    | none =>
      refine absurd ⟨t.toList, ?_⟩ h
      simpa [key, Memo.key, overrides] using hkey
    | some e =>
      have hjoined : d.opening.toList ++ ',' :: (d.closing.toList ++ t.toList) =
          e.opening.toList ++ ',' :: (e.closing.toList ++ u.toList) := by
        simpa [key, Memo.key, overrides] using hkey
      rcases h with rfl | ⟨hd, he, hlength⟩
      · have htemplate := (List.cons.inj (append_cancel_left hjoined)).2
        rw [String.toList_inj.mp (append_cancel_left htemplate)]
      · obtain ⟨hopening, hrest⟩ := eq_of_append_comma hd he hjoined
        obtain ⟨hclosing, htemplate⟩ := append_inj hrest hlength
        obtain ⟨opening, closing⟩ := d
        obtain ⟨opening', closing'⟩ := e
        cases String.toList_inj.mp hopening
        cases String.toList_inj.mp hclosing
        cases String.toList_inj.mp htemplate
        rfl

end Request

namespace Memo

variable {α : Type u} (shared : Overrides)

/-- The answer to a request without a look at those that are kept. -/
def answer (memo : Memo α) (r : Request) : Functions α :=
  memo.fresh r.template (r.overrides shared)

/-- The answers to requests that are made one after the other. -/
def serve : Memo α → List Request → List (Functions α)
  | _, [] => []
  | memo, r :: rs =>
    let (answer, memo) := memo.compile r.template (r.overrides shared)
    answer :: serve memo rs

/-- After a history, a compiler keeps for every key the fresh answer to the first request with it. -/
structure Remembers (start : Memo α) (history : List Request) (memo : Memo α) : Prop where
  base : memo.base = start.base
  factory : memo.factory = start.factory
  kept : ∀ k, memo.answers.get? k =
    (history.find? fun s => s.key = k).map (start.answer shared)

variable {shared} {start memo : Memo α} {history : List Request}

theorem Remembers.answer_eq (h : Remembers shared start history memo) (r : Request) :
    memo.answer shared r = start.answer shared r := by
  rw [answer, answer, fresh, fresh, h.base, h.factory]

/-- One request gives the fresh answer to the first request with its key. -/
theorem Remembers.compile (h : Remembers shared start history memo) (r : Request) :
    (memo.compile r.template (r.overrides shared)).1 =
        start.answer shared (r.first (history ++ [r])) ∧
      Remembers shared start (history ++ [r]) (memo.compile r.template (r.overrides shared)).2 := by
  have hkept := h.kept r.key
  rw [Memo.compile, Request.key_overrides]
  cases hfind : history.find? fun s => s.key = r.key with
  | some s =>
    rw [hfind, map_some] at hkept
    rw [hkept]
    refine ⟨?_, h.base, h.factory, fun k => ?_⟩
    · rw [Request.first, find?_append, hfind, some_or, getD_some]
    · rw [h.kept, find?_append]
      cases hk : history.find? fun s => s.key = k with
      | some t => rfl
      | none =>
        have hne : r.key ≠ k := by
          rintro rfl
          rw [hk] at hfind
          cases hfind
        simp [hne]
  | none =>
    rw [hfind, map_none] at hkept
    rw [hkept]
    refine ⟨?_, h.base, h.factory, fun k => ?_⟩
    · rw [Request.first, find?_append, hfind, none_or]
      rw [find?_singleton, decide_eq_true rfl]
      exact h.answer_eq r
    · show (memo.answers.insert r.key (memo.answer shared r)).get? k = _
      rw [Keyed.get?_insert, h.kept, find?_append, h.answer_eq r]
      by_cases hk : k = r.key
      · cases hk
        simp [hfind]
      · rw [if_neg hk]
        cases history.find? fun s => s.key = k with
        | some t => rfl
        | none => simp [Ne.symm hk]

/-- All requests after a history. -/
theorem Remembers.serve (h : Remembers shared start history memo) (rs : List Request) :
    memo.serve shared rs = rs.map fun r => start.answer shared (r.first (history ++ rs)) := by
  induction rs generalizing history memo with
  | nil => rfl
  | cons r rs ih =>
    obtain ⟨hanswer, hnext⟩ := h.compile r
    have hfirst : r.first (history ++ r :: rs) = r.first (history ++ [r]) := by
      have hfound : ((history ++ [r]).find? fun s => s.key = r.key).isSome = true := by
        simp
      obtain ⟨s, hs⟩ := isSome_iff_exists.mp hfound
      rw [Request.first, Request.first, append_cons, find?_append, hs,
        some_or]
    show (memo.compile r.template (r.overrides shared)).1 :: Memo.serve shared
      (memo.compile r.template (r.overrides shared)).2 rs = _
    rw [map_cons, hanswer, ih hnext, hfirst, append_assoc, singleton_append]

/-- A new compiler gives every request the fresh answer to the first request of the history with the
same key. So its answers are the fresh ones exactly where requests with the same key have the same
fresh answer, as they have where the requests are told apart. -/
theorem answers_of_history (base : Options) (factory : Factory α) (shared : Overrides)
    (requests : List Request) :
    let memo : Memo α := { base, factory }
    memo.serve shared requests =
        (requests.map fun r => memo.answer shared (r.first requests)) ∧
      (memo.serve shared requests = requests.map (memo.answer shared) ↔
        ∀ r ∈ requests, ∀ s ∈ requests, r.key = s.key →
          memo.answer shared r = memo.answer shared s) ∧
      ((∀ r ∈ requests, ∀ s ∈ requests, r.ToldApart s) →
        memo.serve shared requests = requests.map (memo.answer shared)) := by
  intro memo
  have hstart : Remembers shared memo [] memo := ⟨rfl, rfl, fun k => rfl⟩
  have hserve := hstart.serve requests
  rw [nil_append] at hserve
  have hsame (h : ∀ r ∈ requests, ∀ s ∈ requests, r.key = s.key →
      memo.answer shared r = memo.answer shared s) :
      memo.serve shared requests = requests.map (memo.answer shared) := by
    rw [hserve]
    apply map_congr_left
    intro r hr
    exact h _ (Request.first_mem hr) r hr (Request.key_first requests r)
  refine ⟨hserve, ⟨fun h r hr s hs hkey => ?_, hsame⟩, fun h => hsame ?_⟩
  · rw [hserve, map_inj_left] at h
    have hfirst : r.first requests = s.first requests := by
      obtain ⟨t, ht⟩ : ∃ t, (requests.find? fun t => t.key = s.key) = some t := by
        rw [← isSome_iff_exists, find?_isSome]
        exact ⟨s, hs, by simp⟩
      rw [Request.first, Request.first, hkey, ht, getD_some, getD_some]
    rw [← h r hr, ← h s hs, hfirst]
  · intro r hr s hs hkey
    rw [(h r hr s hs).eq hkey]

/-- A comma in the delimiters is not told from the one between them: the second request has other
delimiters than the first, and gets its answer. -/
theorem answer_of_other_delimiters :
    let requests : List Request :=
      [⟨"<p>[,a]</p>", some ⟨"[,", "]"⟩⟩, ⟨"<p>[,a]</p>", some ⟨"[", ",]"⟩⟩]
    let memo : Memo String := { base := Options.web, factory := Factory.source }
    let bound := "function()\x7bwith(this)\x7breturn _c('p',[_v(_s(a))])\x7d\x7d"
    let literal := "function()\x7bwith(this)\x7breturn _c('p',[_v(\"[,a]\")])\x7d\x7d"
    (∀ r ∈ requests, r.delimiters.all Delimiters.isUsable = true) ∧
      (memo.serve {} requests).map Functions.render = [bound, bound] ∧
      (requests.map (memo.answer {})).map Functions.render = [bound, literal] := by
  decide +kernel

end Memo

end ViewTemplate

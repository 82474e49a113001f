import ViewTemplate.Config.Json
import ViewTemplate.Proofs.PrintedJson

/-! # Writing a configuration and reading it back

A configuration is the same after it has been written and read, with the bindings in their order. Two
kinds cannot come back: one with an empty delimiter, which is refused, and one with a binding under
the key that is kept for the form of the script. Nothing that can be read is of these kinds.
-/

open List Option

namespace ViewTemplate

theorem Whitespace.ofName?_name (w : Whitespace) : ofName? w.name = some w := by
  cases w <;> rfl

theorem BindingKind.ofName?_name (k : BindingKind) : ofName? k.name = some k := by
  cases k <;> decide

namespace Config

variable {α : Type}

/-! ## Fields -/

/-- The members of the fields that are set. -/
def written (fields : List (String × Option Json)) : List (String × Json) :=
  fields.flatMap fun f => Json.member? f.1 id f.2

theorem member?_eq (name : String) (write : α → Json) (value : Option α) :
    Json.member? name write value = Json.member? name id (value.map write) := by
  cases value <;> rfl

/-- Of the members of fields with distinct names, only those of the field have its name. -/
theorem filter_written {fields : List (String × Option Json)} (h : (fields.map Prod.fst).Nodup)
    {f : String × Option Json} (hf : f ∈ fields) :
    (written fields).filter (fun m => m.1 == f.1) = Json.member? f.1 id f.2 := by
  have hmember (g : String × Option Json) :
      (Json.member? g.1 id g.2).filter (fun m => m.1 == f.1) =
        if g.1 = f.1 then Json.member? g.1 id g.2 else [] := by
    obtain ⟨name, _ | j⟩ := g
    · split <;> rfl
    · by_cases hname : name = f.1
      · simp [Json.member?, hname]
      · simp [Json.member?, hname]
  induction fields with
  | nil => cases hf
  | cons g fields ih =>
    rw [map_cons, nodup_cons] at h
    rw [written, flatMap_cons, filter_append, hmember, ← written]
    rcases mem_cons.mp hf with rfl | hf
    · have hnone : (written fields).filter (fun m => m.1 == f.1) = [] := by
        rw [written, filter_flatMap, flatMap_eq_nil_iff]
        intro g hg
        rw [hmember, if_neg]
        exact fun hname => h.1 (hname ▸ List.mem_map_of_mem hg)
      rw [if_pos rfl, hnone, append_nil]
    · rw [if_neg, nil_append, ih h.2 hf]
      exact fun hname => h.1 (hname ▸ List.mem_map_of_mem hf)

/-- Each field reads as its value, and as null if it is not set. -/
theorem mapM_readOnce_written {fields : List (String × Option Json)}
    (h : (fields.map Prod.fst).Nodup) :
    (fields.map Prod.fst).mapM (readOnce (written fields)) =
      some (fields.map fun f => f.2.getD .null) := by
  have hone : ∀ f ∈ fields, readOnce (written fields) f.1 = some (f.2.getD .null) := by
    intro f hf
    rw [readOnce, filter_written h hf]
    cases f.2 <;> rfl
  generalize written fields = members at hone
  clear h
  induction fields with
  | nil => rfl
  | cons f fields ih =>
    rw [map_cons, mapM_cons, hone f mem_cons_self,
      ih fun g hg => hone g (mem_cons_of_mem f hg)]
    rfl

/-- A value that is read as it is written comes back, and one that is not set reads as null. -/
theorem nullable_getD {read : Json → Option α} {write : α → Json} {value : Option α}
    (hread : ∀ a ∈ value, read (write a) = some a) (hnull : ∀ a, write a ≠ .null) :
    nullable read ((value.map write).getD .null) = some value := by
  cases value with
  | none => rfl
  | some a =>
    rw [map_some, getD_some, nullable, hread a rfl]
    · rfl
    · exact hnull a

theorem read_of_nullable {read : Json → Option α} {j : Json} {a : α}
    (h : nullable read j = some (some a)) : read j = some a := by
  rw [nullable.eq_def] at h
  split at h
  · cases h
  · obtain ⟨b, hb, heq⟩ := map_eq_some_iff.mp h
    cases heq
    exact hb

theorem nullable_bool (value : Option Bool) :
    nullable readBool ((value.map Json.bool).getD .null) = some value :=
  nullable_getD (fun _ _ => rfl) fun _ => nofun

/-! ## Bindings -/

theorem mapM_readKind (es : List (String × BindingKind)) :
    (es.map fun e => (e.1, Json.text e.2.name)).mapM
      (fun m => (readKind m.2).map fun kind => (m.1, kind)) = some es := by
  induction es with
  | nil => rfl
  | cons e es ih =>
    have hkind : readKind (.text e.2.name) = some e.2 := BindingKind.ofName?_name e.2
    rw [map_cons, mapM_cons, hkind, ih]
    rfl

theorem map_fst_of_mapM_readKind {members : List (String × Json)}
    {kinds : List (String × BindingKind)}
    (h : members.mapM (fun m => (readKind m.2).map fun kind => (m.1, kind)) = some kinds) :
    kinds.map Prod.fst = members.map Prod.fst := by
  induction members generalizing kinds with
  | nil =>
    cases h
    rfl
  | cons m members ih =>
    rw [mapM_cons] at h
    obtain ⟨e, he, h⟩ := bind_eq_some_iff.mp h
    obtain ⟨rest, hrest, h⟩ := bind_eq_some_iff.mp h
    obtain ⟨kind, -, rfl⟩ := map_eq_some_iff.mp he
    cases h
    rw [map_cons, map_cons, ih hrest]

/-- Bindings come back in their order, unless one has the key for the form of the script. -/
theorem readBindings_toJson {b : Bindings} (h : b.kinds.contains Bindings.setupKey = false) :
    readBindings b.toJson = some b := by
  have hkey : ∀ e ∈ b.kinds.entries, (e.1 == Bindings.setupKey) = false := by
    intro e he
    rw [Keyed.contains, Keyed.get?, isSome_eq_false_iff, isNone_iff_eq_none,
      lookup_eq_none_iff] at h
    have hne := h e he
    rwa [bne_iff_ne, ne_comm, ← beq_eq_false_iff_ne] at hne
  have hsetup : (b.kinds.entries.map fun e => (e.1, Json.text e.2.name)).filter
      (fun m => m.1 == Bindings.setupKey) = [] := by
    rw [filter_eq_nil_iff, List.forall_mem_map]
    intro e he
    rw [hkey e he]
    exact Bool.false_ne_true
  have hothers : (b.kinds.entries.map fun e => (e.1, Json.text e.2.name)).filter
      (fun m => m.1 != Bindings.setupKey) = b.kinds.entries.map fun e => (e.1, .text e.2.name) := by
    rw [filter_eq_self, List.forall_mem_map]
    intro e he
    rw [bne, hkey e he]
    rfl
  have hform : readOnce (Json.member? Bindings.setupKey .bool b.isScriptSetup ++
      b.kinds.entries.map fun e => (e.1, .text e.2.name)) Bindings.setupKey =
        some ((b.isScriptSetup.map Json.bool).getD .null) := by
    rw [readOnce, filter_append, hsetup, append_nil]
    cases b.isScriptSetup <;> rfl
  have hrest : (Json.member? Bindings.setupKey .bool b.isScriptSetup ++
      b.kinds.entries.map fun e => (e.1, Json.text e.2.name)).filter
        (fun m => m.1 != Bindings.setupKey) =
      b.kinds.entries.map fun e => (e.1, .text e.2.name) := by
    rw [filter_append, hothers]
    cases b.isScriptSetup <;> rfl
  rw [Bindings.toJson, readBindings, hform, hrest]
  simp only [bind_eq_bind, bind_some, nullable_bool, mapM_readKind,
    Keyed.ofList_entries]
  rfl

/-- What is read has no binding under the key for the form of the script. -/
theorem contains_setupKey_of_readBindings {j : Json} {b : Bindings} (h : readBindings j = some b) :
    b.kinds.contains Bindings.setupKey = false := by
  cases j with
  | object members =>
    rw [readBindings] at h
    obtain ⟨setup, -, h⟩ := bind_eq_some_iff.mp h
    obtain ⟨isScriptSetup, -, h⟩ := bind_eq_some_iff.mp h
    obtain ⟨kinds, hkinds, h⟩ := bind_eq_some_iff.mp h
    cases h
    rw [Keyed.contains, Keyed.get?_ofList_eq_none]
    · rfl
    · intro e he
      have hmem : e.1 ∈ (members.filter fun m => m.1 != Bindings.setupKey).map Prod.fst := by
        rw [← map_fst_of_mapM_readKind hkinds]
        exact List.mem_map_of_mem he
      obtain ⟨m, hm, hname⟩ := List.mem_map.mp hmem
      rw [← hname]
      exact bne_iff_ne.mp (mem_filter.mp hm).2
  | null => cases h
  | bool _ => cases h
  | number _ => cases h
  | text _ => cases h
  | array _ => cases h
  | malformed => cases h

/-! ## Configurations -/

/-- The fields of a configuration as they are written. -/
def fields (config : Config) : List (String × Option Json) :=
  [("whitespace", config.whitespace.map fun w => .text w.name),
    ("preserveWhitespace", config.preserveWhitespace.map .bool),
    ("optimize", config.optimize.map .bool),
    ("delimiters", config.delimiters.map fun d => .array [.text d.opening, .text d.closing]),
    ("comments", config.comments.map .bool),
    ("shouldDecodeNewlines", config.decodeNewlines.map .bool),
    ("shouldDecodeNewlinesForHref", config.decodeNewlinesForHref.map .bool),
    ("bindings", config.bindings.map Bindings.toJson)]

theorem toJson_eq (config : Config) : config.toJson = .object (written config.fields) := by
  simp only [toJson, written, fields, flatMap_cons, flatMap_nil, append_nil,
    append_assoc]
  rw [member?_eq "whitespace", member?_eq "preserveWhitespace", member?_eq "optimize",
    member?_eq "delimiters", member?_eq "comments", member?_eq "shouldDecodeNewlines",
    member?_eq "shouldDecodeNewlinesForHref", member?_eq "bindings"]

theorem readFields_toJson (config : Config) :
    readFields config.toJson = some (config.fields.map fun f => f.2.getD .null) := by
  rw [toJson_eq, readFields]
  exact mapM_readOnce_written (by decide : fieldNames.Nodup)

/-- A configuration is what its JSON reads as. -/
theorem ofJson?_toJson {config : Config}
    (h : ∀ b ∈ config.bindings, b.kinds.contains Bindings.setupKey = false) :
    ofJson? config.toJson = some config := by
  have hwhitespace : nullable readWhitespace
      ((config.whitespace.map fun w => Json.text w.name).getD .null) = some config.whitespace :=
    nullable_getD (fun w _ => Whitespace.ofName?_name w) fun _ => nofun
  have hdelimiters : nullable readDelimiters
      ((config.delimiters.map fun d => Json.array [.text d.opening, .text d.closing]).getD .null) =
        some config.delimiters :=
    nullable_getD (fun _ _ => rfl) fun _ => nofun
  have hbindings : nullable readBindings ((config.bindings.map Bindings.toJson).getD .null) =
      some config.bindings :=
    nullable_getD (fun b hb => readBindings_toJson (h b hb)) fun _ => nofun
  rw [ofJson?, readFields_toJson]
  simp only [fields, map_cons, map_nil, bind_eq_bind, bind_some, hwhitespace,
    hdelimiters, hbindings, nullable_bool]
  rfl

theorem contains_setupKey_of_ofJson? {j : Json} {config : Config} (h : ofJson? j = some config) :
    ∀ b ∈ config.bindings, b.kinds.contains Bindings.setupKey = false := by
  rw [ofJson?] at h
  obtain ⟨fields, -, h⟩ := bind_eq_some_iff.mp h
  split at h
  · iterate 7 obtain ⟨_, -, h⟩ := bind_eq_some_iff.mp h
    obtain ⟨bindings, hbindings, h⟩ := bind_eq_some_iff.mp h
    cases h
    rintro b rfl
    exact contains_setupKey_of_readBindings (read_of_nullable hbindings)
  · cases h

theorem printable_bindings (b : Bindings) : b.toJson.Printable := by
  apply Json.Printable.object
  intro m hm
  rcases mem_append.mp hm with hm | hm
  · cases hsetup : b.isScriptSetup with
    | none =>
      rw [hsetup] at hm
      cases hm
    | some setup =>
      rw [hsetup] at hm
      rw [mem_singleton.mp hm]
      exact .bool setup
  · obtain ⟨e, -, rfl⟩ := List.mem_map.mp hm
    exact .text _

theorem printable_toJson (config : Config) : config.toJson.Printable := by
  rw [toJson_eq]
  apply Json.Printable.object
  intro m hm
  obtain ⟨f, hf, hm⟩ := mem_flatMap.mp hm
  have hvalue : f.2 = some m.2 := by
    obtain ⟨name, _ | j⟩ := f
    · cases hm
    · rw [mem_singleton.mp hm]
      rfl
  have hmap {α : Type} {write : α → Json} {value : Option α} (hwrite : ∀ a, (write a).Printable)
      (h : value.map write = some m.2) : m.2.Printable := by
    obtain ⟨a, -, heq⟩ := map_eq_some_iff.mp h
    exact heq ▸ hwrite a
  simp only [fields, mem_cons, not_mem_nil, or_false] at hf
  rcases hf with rfl | rfl | rfl | rfl | rfl | rfl | rfl | rfl
  · exact hmap (fun _ => .text _) hvalue
  · exact hmap .bool hvalue
  · exact hmap .bool hvalue
  · refine hmap (fun d => .array fun j hj => ?_) hvalue
    simp only [mem_cons, not_mem_nil, or_false] at hj
    rcases hj with rfl | rfl
    · exact .text _
    · exact .text _
  · exact hmap .bool hvalue
  · exact hmap .bool hvalue
  · exact hmap .bool hvalue
  · exact hmap printable_bindings hvalue

/-- A configuration that can be used and written is read back from either printed form. -/
theorem read_of_isValid {config : Config} (hvalid : config.isValid = true)
    (hbindings : ∀ b ∈ config.bindings, b.kinds.contains Bindings.setupKey = false) :
    read config.toJson.compact = .ok config ∧ read config.toJson.pretty = .ok config := by
  have hread {text : String} (h : Json.read? text = some config.toJson) :
      read text = .ok config := by
    rw [read, h, bind_some, ofJson?_toJson hbindings]
    simp only [check, hvalid, if_true]
  exact ⟨hread (Json.read?_compact config.printable_toJson),
    hread (Json.read?_pretty config.printable_toJson)⟩

theorem isValid_iff {config : Config} :
    config.isValid = true ↔ ∀ d ∈ config.delimiters, d.opening ≠ "" ∧ d.closing ≠ "" := by
  rw [isValid]
  cases config.delimiters with
  | none => simp
  | some d => simp [Delimiters.isUsable]

/-- What is read can be used and written. -/
theorem isValid_of_read {text : String} {config : Config} (h : read text = .ok config) :
    config.isValid = true ∧
      ∀ b ∈ config.bindings, b.kinds.contains Bindings.setupKey = false := by
  rw [read] at h
  split at h
  · rename_i found hfound
    rw [check] at h
    split at h
    · rename_i hvalid
      cases h
      obtain ⟨j, -, hj⟩ := bind_eq_some_iff.mp hfound
      exact ⟨hvalid, contains_setupKey_of_ofJson? hj⟩
    · cases h
  · cases h

/-- Every configuration with usable delimiters, and no binding under the key for the form of the
script, is read back from its JSON; and so is every configuration that has been read from any text. -/
theorem read_toJson :
    (∀ config : Config, (∀ d ∈ config.delimiters, d.opening ≠ "" ∧ d.closing ≠ "") →
      (∀ b ∈ config.bindings, b.kinds.contains Bindings.setupKey = false) →
      read config.toJson.compact = .ok config ∧ read config.toJson.pretty = .ok config) ∧
    ∀ text config, read text = .ok config →
      read config.toJson.compact = .ok config ∧ read config.toJson.pretty = .ok config := by
  constructor
  · intro config hdelimiters hbindings
    exact read_of_isValid (isValid_iff.mpr hdelimiters) hbindings
  · intro text config h
    obtain ⟨hvalid, hbindings⟩ := isValid_of_read h
    exact read_of_isValid hvalid hbindings

/-- A configuration with a binding whose name is quoted, and one that is read from a text with a
repeated binding and a field that is not known. -/
theorem read_toJson_of_bindings_in_order :
    let config : Config :=
      { whitespace := some .condense
        delimiters := some ⟨"[[", "]]"⟩
        bindings := some
          { isScriptSetup := some true
            kinds := Keyed.ofList [("b\"\n", .setupRef), ("a", .literalConst)] } }
    let text := "\x7b\"bindings\":\x7b\"b\":\"data\",\"a\":\"props\",\"b\":\"options\"\x7d,\"x\":[1]\x7d"
    let found : Config :=
      { bindings := some { kinds := Keyed.ofList [("b", .options), ("a", .props)] } }
    (∀ d ∈ config.delimiters, d.opening ≠ "" ∧ d.closing ≠ "") ∧
      (∀ b ∈ config.bindings, b.kinds.contains Bindings.setupKey = false) ∧
      (read config.toJson.compact = .ok config ∧ read config.toJson.pretty = .ok config) ∧
      read text = .ok found ∧
      read found.toJson.compact = .ok found ∧ read found.toJson.pretty = .ok found := by
  intro config text found
  have hdelimiters : ∀ d ∈ config.delimiters, d.opening ≠ "" ∧ d.closing ≠ "" := by
    rintro d ⟨⟩
    decide
  have hbindings : ∀ b ∈ config.bindings, b.kinds.contains Bindings.setupKey = false := by
    rintro b ⟨⟩
    decide
  have hfound : read text = .ok found := by decide +kernel
  exact ⟨hdelimiters, hbindings, read_toJson.1 config hdelimiters hbindings, hfound,
    read_toJson.2 text found hfound⟩

end Config

end ViewTemplate

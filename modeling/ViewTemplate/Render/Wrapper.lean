import ViewTemplate.Render.Children

/-! # Wrappers

What is written around the code of an element: a loop, a choice, a function of its own, or a mark that
it is rendered once.
-/

namespace ViewTemplate.Render

/-- Moves code into a function of its own. Inside a verbatim region the code is generated as such. -/
def hoist (scene : Scene) (id : NodeId) (el : Element) (code : Bool → Generation Code)
    (verbatim : Bool) : Generation Code := do
  let code ← code (verbatim || scene.tree.isVerbatim id)
  let index ← Generation.collect code
  pure (.hoisted id index el.staticInLoop)

/-- The names that a loop binds, as parameters. -/
def loopParameters (loop : Loop) : String :=
  ",".intercalate (loop.item :: (loop.iterator1.toList ++ loop.iterator2.toList))

/-- Whether the loop renders components that nothing tells apart. -/
def isUnkeyedList (platform : Platform) (el : Element) : Bool :=
  el.isComponent platform && el.tag != "slot" && el.tag != "template" && el.key.isNone

/-- Repeats code in the loop of the element, if it has one. -/
def repeated (scene : Scene) (el : Element) (code : Generation Code) : Generation Code := do
  match el.loop with
  | none => code
  | some loop =>
    if isUnkeyedList scene.platform el then
      Generation.tip (.unkeyedComponentList el.tag loop.item loop.source) (el.rangeOf "v-for")
    let code ← code
    pure ("_l((" ++ loop.source ++ "),function(" ++ loopParameters loop ++ ")\x7breturn " ++ code ++
      "\x7d)")

/-- The first branch whose guard holds; without a guard a branch always holds. -/
def choose (otherwise : String) : List (Option String × Generation Code) → Generation Code
  | [] => pure otherwise
  | (none, code) :: _ => code
  | (some guard, code) :: rest => do
    let consequent ← code
    let alternative ← choose otherwise rest
    pure ("(" ++ guard ++ ")?" ++ consequent ++ ":" ++ alternative)

/-- The choice that the element holds, if it does, with the given code for its first branch. -/
def chosen (el : Element) (otherwise : String) (others : List (Generation Code))
    (code : Generation Code) : Generation Code :=
  match el.choice with
  | none => code
  | some choice =>
    choose otherwise ((some choice.guard, code) :: (choice.others.map Branch.guard).zip others)

/-- The key of the innermost loop around an element, which tells its repetitions apart. -/
def loopKey? (scene : Scene) (el : Element) : Option String :=
  (((scene.tree.around el).find? fun a => a.loop.isSome).bind Element.key).filter (· ≠ "")

/-- Renders code once for each repetition of the loop around it. -/
def onceInLoop (scene : Scene) (el : Element) (code : Generation Code) : Generation Code := do
  match loopKey? scene el with
  | some key =>
    let code ← code
    let number ← Generation.nextOnce
    pure ("_o(" ++ code ++ "," ++ toString number ++ "," ++ key ++ ")")
  | none =>
    Generation.error .onceInUnkeyedLoop (el.rangeOf "v-once")
    code

end ViewTemplate.Render

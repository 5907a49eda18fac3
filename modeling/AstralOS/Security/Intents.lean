import AstralOS.Security.Capabilities

/-!
# Parsing intents

`parse_intent` of `security/intent.rs`.  The text of an intent is its action, a colon and its target, with the parameters
`key=value` behind a question mark, joined by `&`.  Each separator is looked for only where the parts before it cannot
contain it, so parsing gives back what was written (`parse_intentText`).
-/

namespace AstralOS.Security

variable {sep : Char} {a : List Char}

/-- `splitn(2, sep)`. -/
def splitn2 (sep : Char) : List Char → List (List Char)
  | [] => [[]]
  | c :: s => if c = sep then [[], s] else (splitn2 sep s).modifyHead (c :: ·)

theorem splitn2_of_notMem (h : sep ∉ a) : splitn2 sep a = [a] := by
  induction a with
  | nil => rfl
  | cons c a ih => grind [splitn2, List.modifyHead_cons]

theorem splitn2_append (h : sep ∉ a) (b : List Char) : splitn2 sep (a ++ sep :: b) = [a, b] := by
  induction a with
  | nil => simp [splitn2]
  | cons c a ih => grind [splitn2, List.modifyHead_cons]

/-- The action that a word stands for. -/
def IntentAction.named : String → IntentAction
  | "read" => .readFile
  | "write" => .writeFile
  | "exec" => .executeFile
  | "create" => .createFile
  | "delete" => .deleteFile
  | "connect" => .connectNetwork
  | "bind" => .bindNetwork
  | "spawn" => .spawnProcess
  | "alloc" => .allocateMemory
  | "graphics" => .createGraphics
  | "shutdown" => .shutdown
  | "reboot" => .reboot
  | "reality.fork" => .forkReality
  | "reality.merge" => .mergeReality
  | "causality.query" => .queryCausality
  | _ => .custom

/-- The body of the loop over the parameters: one without `=` is skipped. -/
def parseParam (param : List Char) : Option (String × String) :=
  match splitn2 '=' param with
  | [key, value] => some (.ofList key, .ofList value)
  | _ => none

def parseIntent (intentStr : String) : Option Intent :=
  match splitn2 ':' intentStr.toList with
  | [] => none
  | word :: rest =>
    let intent := Intent.new (.named (.ofList word))
    match rest with
    | [] => some intent
    | args :: _ =>
      match splitn2 '?' args with
      | [] => some intent
      | target :: rest =>
        let intent := if target.isEmpty then intent else { intent with target := some (.ofList target) }
        match rest with
        | [] => some intent
        | params :: _ => some { intent with parameters := (params.splitOn '&').filterMap parseParam }

/-- The text of an intent; the question mark is left out if there are no parameters. -/
def intentText (word target : String) (params : List (String × String)) : String :=
  word ++ ":" ++ target ++
    if params = [] then "" else "?" ++ "&".intercalate (params.map fun p => p.1 ++ "=" ++ p.2)

/-- The parameters are split where they were joined, for none of them contains a separator. -/
theorem parseParams {params : List (String × String)} (hne : params ≠ [])
    (h : ∀ p ∈ params, '=' ∉ p.1.toList ∧ '&' ∉ p.1.toList ∧ '&' ∉ p.2.toList) :
    (("&".intercalate (params.map fun p => p.1 ++ "=" ++ p.2)).toList.splitOn '&').filterMap parseParam = params := by
  have htext : ("&".intercalate (params.map fun p => p.1 ++ "=" ++ p.2)).toList =
      ['&'].intercalate (params.map fun p => p.1.toList ++ '=' :: p.2.toList) := by
    simp [Function.comp_def]
  have hs : ∀ l ∈ params.map (fun p => p.1.toList ++ '=' :: p.2.toList), '&' ∉ l := by
    intro l hl
    obtain ⟨p, hp, rfl⟩ := List.mem_map.1 hl
    grind
  rw [htext, List.splitOn_intercalate '&' hs (by simpa using hne), List.filterMap_map]
  refine (List.filterMap_congr fun p hp => ?_).trans List.filterMap_some
  simp [parseParam, splitn2_append (h p hp).1]

/-- **Parsing an intent.** Every intent is parsed back from its text. -/
theorem parse_intentText (word target : String) (params : List (String × String)) (hword : ':' ∉ word.toList)
    (htarget : target ≠ "") (hmark : '?' ∉ target.toList)
    (hparams : ∀ p ∈ params, '=' ∉ p.1.toList ∧ '&' ∉ p.1.toList ∧ '&' ∉ p.2.toList) :
    parseIntent (intentText word target params) =
      some { action := .named word, target := some target, parameters := params, priority := .normal } := by
  have hem : target.toList.isEmpty = false := by simpa using htarget
  unfold parseIntent intentText
  by_cases hne : params = []
  · simp [hne, splitn2_append hword, splitn2_of_notMem hmark, hem, Intent.new]
  · simp [hne, splitn2_append hword, splitn2_append hmark, hem, Intent.new, -String.toList_intercalate,
      parseParams hne hparams]

theorem parse_intentText_read : ':' ∉ "read".toList ∧
    parseIntent (intentText "read" "/etc/a:b" [("mode", "a=b?c"), ("", "")]) =
      some { action := .readFile, target := some "/etc/a:b", parameters := [("mode", "a=b?c"), ("", "")],
             priority := .normal } :=
  ⟨by decide, parse_intentText _ _ _ (by decide) (by decide) (by decide) (by decide)⟩

end AstralOS.Security

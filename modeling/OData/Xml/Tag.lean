import OData.Text.Blank
import OData.Text.Octets
import OData.Text.Search

/-!
Tags and character references of XML. Attributes are read one after the other as far as they are
needed, so a fault behind the one that is looked for goes unnoticed.
-/

namespace OData.Xml

/-- A start tag or empty tag: what stands between its angle brackets, without the closing slash. -/
structure Tag where
  name : List Char
  /-- What follows the name. -/
  rest : List Char
  deriving DecidableEq, Repr

/-- The part of a name behind its first colon. -/
def localName (name : List Char) : List Char :=
  match Text.cutWhere? (· = ':') name with
  | some (_, after) => after
  | none => name

def Tag.localName (t : Tag) : String :=
  String.ofList (Xml.localName t.name)

/-- A markup that is no XML. -/
inductive Fault
  | malformed
  deriving DecidableEq, Repr

/-- Digits in a base, at most `most` of them, as the number that they denote. -/
def digitsIn? (base most : Nat) (digits : List Char) : Option Nat :=
  if most < digits.length then none
  else
    digits.foldlM (fun n c ↦ do
      let d ← Text.hexValue? c
      guard (d < base)
      return n * base + d) 0

/-- The character with a number, which is neither zero nor a surrogate. -/
def charOfNumber? (n : Nat) : Option Char :=
  if n ≠ 0 ∧ n.isValidChar then some (Char.ofNat n) else none

/-- The character that a reference names, without its ampersand and semicolon. -/
def reference? (name : List Char) : Option Char :=
  match name with
  | '#' :: 'x' :: digits => (digitsIn? 16 6 digits).bind charOfNumber?
  | '#' :: digits => (digitsIn? 10 7 digits).bind charOfNumber?
  | _ =>
    match String.ofList name with
    | "lt" => some '<'
    | "gt" => some '>'
    | "amp" => some '&'
    | "apos" => some '\''
    | "quot" => some '"'
    | _ => none

/-- Expands references; `name` is what has been read of one. -/
def expandFrom : (name : Option (List Char)) → List Char → Except Fault (List Char)
  | none, [] => .ok []
  | some _, [] => .error .malformed
  | none, c :: cs =>
    if c = '&' then expandFrom (some []) cs else (expandFrom none cs).map (c :: ·)
  | some name, c :: cs =>
    if c = ';' then
      match reference? name with
      | some d => (expandFrom none cs).map (d :: ·)
      | none => .error .malformed
    else if c = '&' then .error .malformed
    else expandFrom (some (name ++ [c])) cs

def expand (cs : List Char) : Except Fault (List Char) :=
  expandFrom none cs

structure Attribute where
  name : List Char
  value : List Char
  deriving DecidableEq, Repr

/-- The first attribute of a text, with what follows it; nothing where only blanks are left. The
name `seen` before must not come again. -/
def nextAttribute (seen : List (List Char)) (cs : List Char) :
    Except Fault (Option (Attribute × List Char)) :=
  match Text.trimLeftWhile Text.isMarkupBlank cs with
  | [] => .ok none
  | first :: others =>
    let ends (c : Char) : Bool := c = '=' || Text.isMarkupBlank c
    let name := first :: others.takeWhile fun c ↦ !ends c
    match Text.trimLeftWhile Text.isMarkupBlank (others.dropWhile fun c ↦ !ends c) with
    | '=' :: afterSign =>
      if seen.any (· == name) then .error .malformed
      else
        match Text.trimLeftWhile Text.isMarkupBlank afterSign with
        | quote :: content =>
          if quote = '"' ∨ quote = '\'' then
            match Text.cutWhere? (· = quote) content with
            | some (value, rest) => .ok (some (⟨name, value⟩, rest))
            | none => .error .malformed
          else .error .malformed
        | [] => .error .malformed
    | _ => .error .malformed

theorem length_dropWhile_le (p : Char → Bool) (cs : List Char) :
    (cs.dropWhile p).length ≤ cs.length :=
  (List.dropWhile_sublist p).length_le

theorem nextAttribute_length {seen : List (List Char)} {cs rest : List Char} {a : Attribute}
    (h : nextAttribute seen cs = .ok (some (a, rest))) : rest.length < cs.length := by
  unfold nextAttribute at h
  split at h
  · simp at h
  rename_i first others hfirst
  have h₁ : (first :: others).length ≤ cs.length := by
    rw [← hfirst]
    exact length_dropWhile_le _ _
  simp only at h
  split at h
  · rename_i afterSign hsign
    have h₂ : ('=' :: afterSign).length ≤ others.length := by
      rw [← hsign]
      exact Nat.le_trans (length_dropWhile_le _ _) (length_dropWhile_le _ _)
    split at h
    · simp at h
    · split at h
      · rename_i quote content hquote
        have h₃ : (quote :: content).length ≤ afterSign.length := by
          rw [← hquote]
          exact length_dropWhile_le _ _
        split at h
        · split at h
          · rename_i value rest' hcut
            simp only [Except.ok.injEq, Option.some.injEq, Prod.mk.injEq] at h
            obtain ⟨_, rfl⟩ := h
            have h₄ := Text.cutWhere?_length hcut
            simp only [List.length_cons] at h₁ h₂ h₃
            omega
          · simp at h
        · simp at h
      · simp at h
  · simp at h

/-- The value of the first attribute with a local name, its references expanded. -/
def findAttribute (wanted : List Char) (seen : List (List Char)) (cs : List Char) :
    Except Fault (Option (List Char)) :=
  match _h : nextAttribute seen cs with
  | .error e => .error e
  | .ok none => .ok none
  | .ok (some (a, rest)) =>
    if localName a.name = wanted then (expand a.value).map some
    else findAttribute wanted (a.name :: seen) rest
termination_by cs.length
decreasing_by exact nextAttribute_length _h

/-- The value of an attribute by its local name. -/
def Tag.attribute (t : Tag) (name : String) : Except Fault (Option String) :=
  (findAttribute name.toList [] t.rest).map (·.map String.ofList)

end OData.Xml

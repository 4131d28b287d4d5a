import OData.Http.Message
import OData.Proofs.Http.Head
import OData.Proofs.Text.Digits

/-!
Responses as services write them, and how they are read: with headers or without any, whatever
stands behind the status, and whatever the body is.
-/

namespace OData

namespace Text

variable {n : Nat}

theorem exists_paddedDecimal_eq (h : n < 1000) : ∃ a b c, paddedDecimal 3 n = [a, b, c] := by
  have hlength : (paddedDecimal 3 n).length = 3 := length_paddedDecimal (by decide) h
  match hdigits : paddedDecimal 3 n, hlength with
  | [a, b, c], _ => exact ⟨a, b, c, rfl⟩

end Text

/-- A first line with a status of three digits. -/
def statusLine (status : Nat) (reason : List Char) : List Char :=
  "HTTP/1.1 ".toList ++ (Text.paddedDecimal 3 status ++ ' ' :: reason)

theorem statusLine_eq (status : Nat) (reason : List Char) : statusLine status reason =
    "HTTP/".toList ++ (['1', '.', '1', ' '] ++ (Text.paddedDecimal 3 status ++ ' ' :: reason)) := by
  have hversion : "HTTP/1.1 ".toList = "HTTP/".toList ++ ['1', '.', '1', ' '] := by decide
  rw [← List.append_assoc, ← hversion]
  rfl

theorem statusOfLine?_statusLine {status : Nat} (h : status < 1000) (reason : List Char) :
    statusOfLine? (statusLine status reason) = some status := by
  obtain ⟨a, b, c, hdigits⟩ := Text.exists_paddedDecimal_eq h
  have hdigit : ∀ d ∈ [a, b, c], d.isDigit := by
    intro d hd
    rw [← hdigits] at hd
    exact Text.isDigit_of_mem_paddedDecimal hd
  have htrim : Text.trimLeftWhile Text.isBlank ([' '] ++ a :: b :: c :: ' ' :: reason) =
      a :: b :: c :: ' ' :: reason := by
    rw [Text.trimLeftWhile_append (List.forall_mem_singleton.2 rfl)]
    apply Text.trimLeftWhile_eq_self
    intro d hd
    obtain rfl := Option.some.inj hd
    exact Text.isBlank_of_isDigit (hdigit _ List.mem_cons_self)
  have hcode : statusCode? (a :: b :: c :: ' ' :: reason) = some status := by
    have hall : [a, b, c].all Char.isDigit := List.all_eq_true.2 hdigit
    rw [statusCode?, if_pos hall, ← hdigits, Text.digitsValue_paddedDecimal]
  rw [statusLine_eq, hdigits, statusOfLine?, Text.afterPrefix?_append]
  exact (congrArg statusCode? htrim).trans hcode

theorem not_mem_statusLine {status : Nat} {reason : List Char} {c : Char} (hdigit : c.isDigit = false)
    (hversion : c ∉ "HTTP/1.1 ".toList) (h : c ∉ reason) : c ∉ statusLine status reason := by
  intro hmem
  rcases List.mem_append.1 hmem with hc | hmem
  · exact hversion hc
  · rcases List.mem_append.1 hmem with hc | hmem
    · rw [Text.isDigit_of_mem_paddedDecimal hc] at hdigit
      contradiction
    · rcases List.mem_cons.1 hmem with rfl | hc
      · exact hversion (by decide)
      · exact h hc

theorem newline_not_mem_statusLine {status : Nat} {reason : List Char} (h : '\n' ∉ reason) :
    '\n' ∉ statusLine status reason :=
  not_mem_statusLine rfl (by decide) h

theorem length_cutFirstLine_le (cs : List Char) :
    (cutFirstLine cs).1.length + (cutFirstLine cs).2.length ≤ cs.length := by
  rw [cutFirstLine]
  cases hcut : Text.cutWhere? (· = '\n') cs with
  | none => exact Nat.le_refl _
  | some cut =>
    obtain ⟨before, after⟩ := cut
    have hlength := Text.cutWhere?_length hcut
    rw [Option.getD_some]
    dsimp only
    omega

namespace Response

variable {nl : LineEnding} {r : Response} {reason : List Char}

def written (nl : LineEnding) (reason : List Char) (r : Response) : List Char :=
  statusLine r.status reason ++
    (nl.chars ++ (r.headers.written nl ++ (nl.chars ++ r.body.toList)))

theorem cutFirstLine_written (nl : LineEnding) (r : Response) (h : '\n' ∉ reason) :
    ∃ before, (∀ c ∈ before, c = '\r') ∧
      cutFirstLine (r.written nl reason) = (statusLine r.status reason ++ before,
        r.headers.written nl ++ (nl.chars ++ r.body.toList)) := by
  obtain ⟨before, hnl, hbefore⟩ := nl.exists_chars_eq
  have hline : ∀ c ∈ statusLine r.status reason ++ before, decide (c = '\n') = false := by
    intro c hc
    apply decide_eq_false
    rintro rfl
    rcases List.mem_append.1 hc with hc | hc
    · exact newline_not_mem_statusLine h hc
    · exact absurd (hbefore _ hc) (by decide)
  have htext : r.written nl reason = (statusLine r.status reason ++ before) ++
      '\n' :: (r.headers.written nl ++ (nl.chars ++ r.body.toList)) := by
    simp only [written, hnl, List.append_assoc, List.singleton_append]
  refine ⟨before, hbefore, ?_⟩
  rw [htext, cutFirstLine, Text.cutWhere?_append hline rfl, Option.getD_some]

/-- A carriage return at the end of the first line belongs to the text that is free. -/
theorem statusOfLine?_trimRightWhile (hstatus : r.status < 1000) {before : List Char}
    (hbefore : ∀ c ∈ before, c = '\r') :
    statusOfLine? (Text.trimRightWhile (· = '\r') (statusLine r.status reason ++ before)) =
      some r.status := by
  have hfree : Text.trimRightWhile (· = '\r') (statusLine r.status reason ++ before) =
      statusLine r.status (Text.trimRightWhile (· = '\r') reason) := by
    rw [Text.trimRightWhile_append fun c hc ↦ decide_eq_true (hbefore c hc), statusLine_eq,
      statusLine_eq, ← List.append_assoc, ← List.append_assoc,
      Text.trimRightWhile_append_cons (by decide), List.append_assoc, List.append_assoc]
  rw [hfree]
  exact statusOfLine?_statusLine hstatus _

theorem ofChars_written (hstatus : r.status < 1000) (hreason : '\n' ∉ reason)
    (hheaders : ∀ header ∈ r.headers, IsHeader header) :
    ofChars (r.written nl reason) = .ok r := by
  obtain ⟨before, hbefore, hcut⟩ := cutFirstLine_written nl r hreason
  have htrim : Text.trimLeftWhile (fun c ↦ c = '\r' || c = '\n') (r.written nl reason) =
      r.written nl reason := by
    apply Text.trimLeftWhile_eq_self
    intro c hc
    have hhead : (r.written nl reason).head? = some 'H' := rfl
    rw [hhead] at hc
    obtain rfl := Option.some.inj hc
    rfl
  rw [ofChars, htrim, hcut]
  dsimp only
  rw [statusOfLine?_trimRightWhile hstatus hbefore]
  dsimp only
  by_cases hempty : r.headers = []
  · have hrest : afterLineBreak? (r.headers.written nl ++ (nl.chars ++ r.body.toList)) =
        some r.body.toList := by
      rw [hempty]
      exact LineEnding.afterLineBreak?_chars_append r.body.toList
    have hnone : Headers.ofLines [] = r.headers := hempty.symm
    rw [hrest]
    dsimp only
    rw [hnone, String.ofList_toList]
  · obtain ⟨head, hhead, hread⟩ := Headers.exists_head_of_written nl hempty hheaders r.body.toList
    rw [Headers.afterLineBreak?_written hempty hheaders, hhead]
    dsimp only
    rw [hread, String.ofList_toList]

/-- Reading a response takes its first line away. -/
theorem length_body_lt {cs : List Char} (h : ofChars cs = .ok r) :
    r.body.toList.length < cs.length := by
  have htrim : (Text.trimLeftWhile (fun c ↦ c = '\r' || c = '\n') cs).length ≤ cs.length :=
    (List.dropWhile_sublist _).length_le
  have hcut := length_cutFirstLine_le (Text.trimLeftWhile (fun c ↦ c = '\r' || c = '\n') cs)
  unfold ofChars at h
  split at h
  rename_i line rest hcut'
  rw [hcut'] at hcut
  dsimp only at h hcut
  split at h
  · contradiction
  · rename_i status hstatus
    have hline : 0 < line.length := by
      refine List.length_pos_of_ne_nil ?_
      rintro rfl
      contradiction
    split at h
    · rename_i behind hbehind
      obtain rfl := Except.ok.inj h
      have hle := (afterLineBreak?_sublist hbehind).length_le
      rw [String.toList_ofList]
      dsimp only
      omega
    · obtain rfl := Except.ok.inj h
      rw [String.toList_ofList]
      rcases length_cutAtBlankLine_le rest with hnil | hle
      · rw [hnil, List.length_nil]
        omega
      · omega

end Response
end OData

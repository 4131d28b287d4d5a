import OData.Proofs.Batch.Response

/-!
Parts without headers. Nothing stands between the delimiter line of such a part and the blank line in front
of its body but the line break of the one, so that the blank line is not found there: what comes first in the
body is taken for headers, up to a blank line of its own. A response to a batch in such a part is lost.
-/

namespace OData

open Multipart

variable {nl : LineEnding}

namespace Multipart

variable {e : Envelope} {p : Part} {parts : List Part}

namespace Part

/-- The part that a part is read as. Without headers, the text up to the first blank line that is found is
taken for them. -/
def readBack (nl : LineEnding) (p : Part) : Part :=
  if p.headers = [] then
    let cut := cutAtBlankLine (nl.chars ++ p.body.toList)
    ⟨Headers.ofLines cut.1, String.ofList cut.2⟩
  else p

theorem ofSection_section_nil (h : p.headers = [])
    (hbody : nl = .lf → p.body.toList.getLast? ≠ some '\r') :
    ofSection (p.section nl) = p.readBack nl := by
  have hwritten : p.written nl = nl.chars ++ p.body.toList := by rw [written, h]; rfl
  rw [ofSection, Part.section, LineEnding.afterLineBreak?_chars_append, Option.getD_some,
    LineEnding.withoutFinalLineBreak_append_chars, hwritten, LineEnding.keep_chars_append,
    LineEnding.keep_eq_self hbody, readBack, if_pos h]

theorem ofSection_section_eq (hheaders : ∀ header ∈ p.headers, IsHeader header)
    (hbody : nl = .lf → p.body.toList.getLast? ≠ some '\r') :
    ofSection (p.section nl) = p.readBack nl := by
  by_cases h : p.headers = []
  · exact ofSection_section_nil h hbody
  · rw [ofSection_section ⟨h, hheaders⟩, keep_eq_self hbody, readBack, if_neg h]

/-- A part is read as it is if it has headers, or no body either. -/
theorem readBack_eq_self_iff (p : Part) (nl : LineEnding) :
    p.readBack nl = p ↔ (p.headers = [] → p.body = "") := by
  rw [readBack]
  by_cases h : p.headers = []
  · rw [if_pos h]
    constructor
    · intro hread _
      have hbody : (cutAtBlankLine (nl.chars ++ p.body.toList)).2 = p.body.toList := by
        rw [← String.toList_ofList (l := (cutAtBlankLine (nl.chars ++ p.body.toList)).2)]
        exact congrArg (fun q ↦ q.body.toList) hread
      by_contra hne
      have hlt := length_cutAtBlankLine_lt nl (mt String.toList_eq_nil_iff.1 hne)
      rw [hbody] at hlt
      exact Nat.lt_irrefl _ hlt
    · intro hbody
      obtain ⟨headers, body⟩ := p
      obtain rfl : headers = [] := h
      obtain rfl : body = "" := hbody rfl
      cases nl <;> rfl
  · rw [if_neg h]
    exact iff_of_true rfl fun hnil ↦ absurd hnil h

theorem map_readBack_eq_self_iff :
    parts.map (readBack nl) = parts ↔ ∀ p ∈ parts, p.headers = [] → p.body = "" := by
  simp only [← readBack_eq_self_iff _ nl]
  conv_lhs => rw [← List.map_id parts, List.map_map]
  exact List.map_inj_left

end Part

namespace Envelope

theorem Apart.split_readBack (h : e.Apart nl parts)
    (hheaders : ∀ p ∈ parts, ∀ header ∈ p.headers, IsHeader header)
    (hbody : nl = .lf → ∀ p ∈ parts, p.body.toList.getLast? ≠ some '\r') :
    split e.boundary (String.ofList (e.chars nl parts)) = .ok (parts.map (Part.readBack nl)) := by
  rw [h.split_chars]
  exact congrArg Except.ok (List.map_congr_left fun p hp ↦
    Part.ofSection_section_eq (hheaders p hp) fun hnl ↦ hbody hnl p hp)

end Envelope
end Multipart

namespace Reply

variable {r : Reply}

/-- A response to be put in a part: a status of three digits, one line of text behind it, and headers in lines
of their own. -/
structure IsHttp (r : Reply) : Prop where
  status : r.response.status < 1000
  reason : OneLine r.reason.toList
  headers : ∀ header ∈ r.response.headers, IsHeader header

/-- The blank line that is found in a response is the one in front of its body. -/
theorem IsHttp.exists_cutAtBlankLine (h : r.IsHttp) (nl : LineEnding) : ∃ head,
    cutAtBlankLine (nl.chars ++ (r.part nl).body.toList) = (head, r.response.body.toList) := by
  have hfeed : '\n' ∉ statusLine r.response.status r.reason.toList :=
    newline_not_mem_statusLine h.reason.no_feed
  have hreturn : ∀ c ∈ (statusLine r.response.status r.reason.toList).getLast?, c ≠ '\r' := by
    rintro c hc rfl
    exact not_mem_statusLine rfl (by decide) h.reason.no_return (List.mem_of_getLast? hc)
  have hfirst : ∀ c ∈ (r.response.written nl r.reason.toList).head?, c ≠ '\r' ∧ c ≠ '\n' := by
    intro c hc
    have hhead : (r.response.written nl r.reason.toList).head? = some 'H' := rfl
    rw [hhead] at hc
    obtain rfl := Option.some.inj hc
    decide
  rw [part, String.toList_ofList, cutAtBlankLine_chars_append hfirst, Response.written,
    cutAtBlankLine_append hfeed hreturn]
  by_cases hempty : r.response.headers = []
  · have hblank : cutAtBlankLine (nl.chars ++
        (r.response.headers.written nl ++ (nl.chars ++ r.response.body.toList))) =
          ([], r.response.body.toList) := by
      rw [hempty]
      exact cutAtBlankLine_blankLine _
    rw [hblank]
    exact ⟨_, rfl⟩
  · have hline := Headers.head_written_append_ne nl hempty h.headers
      (nl.chars ++ r.response.body.toList)
    obtain ⟨head, hcut, -⟩ := Headers.exists_head_of_written nl hempty h.headers r.response.body.toList
    rw [cutAtBlankLine_chars_append hline, hcut]
    exact ⟨_, rfl⟩

/-- A response in a part without headers is not read. -/
theorem IsHttp.ofPart_readBack_ne (h : r.IsHttp) (hmime : r.mime = []) :
    ResponsePart.ofPart ((r.part nl).readBack nl) ≠ .ok (.single r.outcome) := by
  obtain ⟨head, hcut⟩ := h.exists_cutAtBlankLine nl
  have hread : (r.part nl).readBack nl = ⟨Headers.ofLines head, r.response.body⟩ := by
    have hheaders : (r.part nl).headers = [] := hmime
    rw [Part.readBack, if_pos hheaders, hcut]
    dsimp only
    rw [String.ofList_toList]
  intro heq
  rw [hread, ResponsePart.ofPart] at heq
  dsimp only at heq
  split at heq
  · obtain ⟨b, -, hsplit⟩ := Except.bind_eq_ok.1 heq
    obtain ⟨parts, -, hchangeset⟩ := Except.bind_eq_ok.1 hsplit
    have hne := Except.ok.inj hchangeset
    contradiction
  · have hsingle := ResponsePart.single.inj (Except.ok.inj heq)
    rw [PartOutcome.ofPart] at hsingle
    dsimp only at hsingle
    split at hsingle
    · rename_i s hs
      obtain rfl : s = r.response := congrArg PartResponse.response (PartOutcome.response.inj hsingle)
      exact Nat.lt_irrefl _ (Response.length_body_lt hs)
    · contradiction

theorem IsHttp.ofPart_readBack (h : r.IsHttp) {parameters : String}
    (hcontentType : Headers.value? "Content-Type" r.mime = some ("application/http" ++ parameters)) :
    ResponsePart.ofPart ((r.part nl).readBack nl) = .ok (.single r.outcome) := by
  have hne : (r.part nl).headers ≠ [] := by
    intro hnil
    have hmime : r.mime = [] := hnil
    rw [hmime] at hcontentType
    contradiction
  have houtcome : PartOutcome.ofPart (r.part nl) = r.outcome := by
    rw [PartOutcome.ofPart, part, String.toList_ofList,
      Response.ofChars_written h.status h.reason.no_feed h.headers]
    rfl
  have hpart : (r.part nl).contentType? = some ("application/http" ++ parameters) := hcontentType
  rw [Part.readBack, if_neg hne, ResponsePart.ofPart_single hpart, houtcome]

/-- The headers of a part that holds a response: that it does, or none at all. -/
def MaySayHttp (r : Reply) : Prop :=
  r.mime = [] ∨
    ∃ parameters, Headers.value? "Content-Type" r.mime = some ("application/http" ++ parameters)

end Reply

namespace ResponsePart

variable {e : Envelope} {parts : List Part} {replies : List Reply} {contentType : String}

/-- Responses are read from a document if every part has headers. -/
theorem ofBody_eq_ok_iff_mime (h : e.Apart nl (replies.map (Reply.part nl)))
    (hheaders : ∀ p ∈ replies.map (Reply.part nl), ∀ header ∈ p.headers, IsHeader header)
    (hbody : nl = .lf → ∀ p ∈ replies.map (Reply.part nl), p.body.toList.getLast? ≠ some '\r')
    (hboundary : boundary contentType = .ok e.boundary)
    (hreplies : ∀ r ∈ replies, r.IsHttp ∧ r.MaySayHttp) :
    ofBody contentType (String.ofList (e.chars nl (replies.map (Reply.part nl)))) =
      .ok (replies.map fun r ↦ .single r.outcome) ↔ ∀ r ∈ replies, r.mime ≠ [] := by
  have hsplit := h.split_readBack hheaders hbody
  rw [List.map_map] at hsplit
  have hread : ofBody contentType (String.ofList (e.chars nl (replies.map (Reply.part nl)))) =
      (replies.map fun r ↦ (r.part nl).readBack nl).mapM ofPart :=
    (Except.bind_of_eq_ok hboundary).trans (Except.bind_of_eq_ok hsplit)
  rw [hread]
  constructor
  · intro hok r hr hmime
    exact (hreplies r hr).1.ofPart_readBack_ne hmime (Except.of_mapM_map_eq_ok hok r hr)
  · intro hmime
    refine Except.mapM_map_eq_ok fun r hr ↦ ?_
    obtain ⟨hhttp, hnil | ⟨parameters, hcontentType⟩⟩ := hreplies r hr
    · exact absurd hnil (hmime r hr)
    · exact hhttp.ofPart_readBack hcontentType

/-- A document is split into the parts that it was written from if those without headers have no body either,
and a response is read from a part if that has headers. -/
theorem split_ofBody_headless (h : e.Apart nl parts)
    (hheaders : ∀ p ∈ parts, ∀ header ∈ p.headers, IsHeader header)
    (hbody : nl = .lf → ∀ p ∈ parts, p.body.toList.getLast? ≠ some '\r') :
    split e.boundary (String.ofList (e.chars nl parts)) = .ok (parts.map (Part.readBack nl)) ∧
      (split e.boundary (String.ofList (e.chars nl parts)) = .ok parts ↔
        ∀ p ∈ parts, p.headers = [] → p.body = "") ∧
      ∀ (contentType : String) (replies : List Reply), boundary contentType = .ok e.boundary →
        parts = replies.map (Reply.part nl) → (∀ r ∈ replies, r.IsHttp ∧ r.MaySayHttp) →
        (ofBody contentType (String.ofList (e.chars nl parts)) =
            .ok (replies.map fun r ↦ .single r.outcome) ↔ ∀ r ∈ replies, r.mime ≠ []) := by
  have hsplit := h.split_readBack hheaders hbody
  refine ⟨hsplit, ?_, ?_⟩
  · rw [hsplit, Except.ok.injEq]
    exact Part.map_readBack_eq_self_iff
  · rintro contentType replies hboundary rfl hreplies
    exact ofBody_eq_ok_iff_mime h hheaders hbody hboundary hreplies

/-- A response in a part without headers, and one in a part that says what it holds. -/
def bareReplies : List Reply :=
  [⟨[], "No Content", ⟨204, [], ""⟩⟩,
    ⟨[("Content-Type", "application/http")], "OK", ⟨200, [("ETag", "1")], "x"⟩⟩]

def bareEnvelope : Envelope :=
  ⟨"b", none, some ""⟩

theorem apart_bareReplies : bareEnvelope.Apart .lf (bareReplies.map (Reply.part .lf)) := by
  refine ⟨by decide, ⟨by decide, by decide⟩, nofun, ?_⟩
  decide +kernel

theorem isHttp_of_mem_bareReplies : ∀ r ∈ bareReplies, r.IsHttp ∧ r.MaySayHttp := by
  refine List.forall_mem_cons.2 ⟨⟨?_, .inl rfl⟩, List.forall_mem_singleton.2 ⟨?_, .inr ?_⟩⟩
  · exact ⟨by decide, ⟨by decide, by decide⟩, nofun⟩
  · exact ⟨by decide, ⟨by decide, by decide⟩, List.forall_mem_singleton.2 (by decide)⟩
  · exact ⟨"", by decide⟩

theorem isHeader_bareReplies :
    ∀ p ∈ bareReplies.map (Reply.part .lf), ∀ header ∈ p.headers, IsHeader header := by
  decide

theorem getLast?_bareReplies :
    ∀ p ∈ bareReplies.map (Reply.part .lf), p.body.toList.getLast? ≠ some '\r' := by
  decide +kernel

theorem boundary_bareEnvelope : boundary "multipart/mixed; boundary=b" = .ok bareEnvelope.boundary :=
  boundary_eq_ok (by decide) (namesBoundary_contentType "b")

theorem split_ofBody_bareReplies :
    bareEnvelope.Apart .lf (bareReplies.map (Reply.part .lf)) ∧
      (∀ p ∈ bareReplies.map (Reply.part .lf), ∀ header ∈ p.headers, IsHeader header) ∧
      (∀ p ∈ bareReplies.map (Reply.part .lf), p.body.toList.getLast? ≠ some '\r') ∧
      (∀ r ∈ bareReplies, r.IsHttp ∧ r.MaySayHttp) ∧
      split "b" (String.ofList (bareEnvelope.chars .lf (bareReplies.map (Reply.part .lf)))) ≠
        .ok (bareReplies.map (Reply.part .lf)) ∧
      ofBody "multipart/mixed; boundary=b"
          (String.ofList (bareEnvelope.chars .lf (bareReplies.map (Reply.part .lf)))) ≠
        .ok (bareReplies.map fun r ↦ .single r.outcome) := by
  obtain ⟨-, hsplit, hofBody⟩ := split_ofBody_headless apart_bareReplies isHeader_bareReplies
    fun _ ↦ getLast?_bareReplies
  refine ⟨apart_bareReplies, isHeader_bareReplies, getLast?_bareReplies, isHttp_of_mem_bareReplies, ?_⟩
  refine ⟨fun hread ↦ ?_, fun hread ↦ ?_⟩
  · have hempty := hsplit.1 hread _ List.mem_cons_self rfl
    exact absurd hempty (by decide +kernel)
  · have hmime := (hofBody _ bareReplies boundary_bareEnvelope rfl isHttp_of_mem_bareReplies).1 hread
    exact hmime _ List.mem_cons_self rfl

/-- Neither are parts without headers what documents are split into, nor are the responses in them read. -/
theorem not_split_ofBody_headless :
    (¬ ∀ nl (e : Envelope) (parts : List Part), e.Apart nl parts →
      (∀ p ∈ parts, ∀ header ∈ p.headers, IsHeader header) →
      (nl = .lf → ∀ p ∈ parts, p.body.toList.getLast? ≠ some '\r') →
      split e.boundary (String.ofList (e.chars nl parts)) = .ok parts) ∧
    ¬ ∀ nl (e : Envelope) (contentType : String) (replies : List Reply),
      e.Apart nl (replies.map (Reply.part nl)) →
      (∀ p ∈ replies.map (Reply.part nl), ∀ header ∈ p.headers, IsHeader header) →
      (nl = .lf → ∀ p ∈ replies.map (Reply.part nl), p.body.toList.getLast? ≠ some '\r') →
      boundary contentType = .ok e.boundary → (∀ r ∈ replies, r.IsHttp ∧ r.MaySayHttp) →
      ofBody contentType (String.ofList (e.chars nl (replies.map (Reply.part nl)))) =
        .ok (replies.map fun r ↦ .single r.outcome) := by
  have hbody : LineEnding.lf = .lf →
      ∀ p ∈ bareReplies.map (Reply.part .lf), p.body.toList.getLast? ≠ some '\r' :=
    fun _ ↦ getLast?_bareReplies
  refine ⟨fun h ↦ ?_, fun h ↦ ?_⟩
  · have hread := h .lf bareEnvelope _ apart_bareReplies isHeader_bareReplies hbody
    rw [apart_bareReplies.split_readBack isHeader_bareReplies hbody, Except.ok.injEq,
      Part.map_readBack_eq_self_iff] at hread
    exact absurd (hread _ List.mem_cons_self rfl) (by decide +kernel)
  · have hread := h .lf bareEnvelope _ _ apart_bareReplies isHeader_bareReplies hbody
      boundary_bareEnvelope isHttp_of_mem_bareReplies
    rw [ofBody_eq_ok_iff_mime apart_bareReplies isHeader_bareReplies hbody boundary_bareEnvelope
      isHttp_of_mem_bareReplies] at hread
    exact hread _ List.mem_cons_self rfl

end ResponsePart
end OData

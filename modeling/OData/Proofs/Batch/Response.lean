import OData.Batch.Response
import OData.Proofs.Answer
import OData.Proofs.Http.Message
import OData.Proofs.Multipart.Document

/-!
Responses to a batch as services write them, with either line ending. Reading gives back every
response at its place, with its headers and its body, and the number of the part that it is for.
-/

namespace OData

open Multipart

/-- A response with the headers of its part and the text behind its status. -/
structure Reply where
  mime : Headers
  reason : String
  response : Response
  deriving DecidableEq, Repr

namespace Reply

variable {nl : LineEnding} {r : Reply}

def part (nl : LineEnding) (r : Reply) : Part :=
  ⟨r.mime, String.ofList (r.response.written nl r.reason.toList)⟩

def outcome (r : Reply) : PartOutcome :=
  .response ⟨r.response, Headers.value? "Content-ID" r.mime⟩

/-- What a reply has to be for its text to say all of it. -/
structure Fits (nl : LineEnding) (r : Reply) : Prop where
  mime : ∀ header ∈ r.mime, IsHeader header
  contentType : ∃ parameters,
    Headers.value? "Content-Type" r.mime = some ("application/http" ++ parameters)
  status : r.response.status < 1000
  reason : '\n' ∉ r.reason.toList
  headers : ∀ header ∈ r.response.headers, IsHeader header
  body : nl = .lf → r.response.body.toList.getLast? ≠ some '\r'

theorem Fits.hasHeaders (h : r.Fits nl) : (r.part nl).HasHeaders := by
  refine ⟨?_, h.mime⟩
  obtain ⟨parameters, hvalue⟩ := h.contentType
  intro hnil
  have hmime : r.mime = [] := hnil
  rw [hmime] at hvalue
  contradiction

/-- The text of a response ends with its body or with the blank line in front of it. -/
theorem Fits.keep_part (h : r.Fits nl) : (r.part nl).keep nl = r.part nl := by
  have hbody : nl.chars ++ r.response.body.toList ≠ [] := by cases nl <;> exact List.cons_ne_nil _ _
  have hkeep : nl.keep (r.response.written nl r.reason.toList) =
      r.response.written nl r.reason.toList := by
    have htext : r.response.written nl r.reason.toList =
        (statusLine r.response.status r.reason.toList ++ nl.chars ++
          r.response.headers.written nl) ++ (nl.chars ++ r.response.body.toList) := by
      simp only [Response.written, List.append_assoc]
    rw [htext, LineEnding.keep_append nl _ hbody, LineEnding.keep_chars_append,
      LineEnding.keep_eq_self h.body]
  rw [Part.keep, part]
  dsimp only
  rw [String.toList_ofList, hkeep]

theorem Fits.ofPart_part (h : r.Fits nl) : PartOutcome.ofPart (r.part nl) = r.outcome := by
  rw [PartOutcome.ofPart, part, String.toList_ofList,
    Response.ofChars_written h.status h.reason h.headers]
  rfl

/-- The parts of a document of replies, also where it is the body of a part. -/
theorem split_keep_chars {e : Envelope} {replies : List Reply}
    (hseparates : e.Separates nl (replies.map (part nl))) (hreplies : ∀ r ∈ replies, r.Fits nl) :
    split e.boundary (String.ofList (nl.keep (e.chars nl (replies.map (part nl))))) =
      .ok (replies.map (part nl)) := by
  have hparts : ∀ p ∈ replies.map (part nl), p.HasHeaders := by
    intro p hp
    obtain ⟨r, hr, rfl⟩ := List.mem_map.1 hp
    exact (hreplies r hr).hasHeaders
  have hkeep : (replies.map (part nl)).map (Part.keep nl) = replies.map (part nl) := by
    rw [List.map_map]
    exact List.map_congr_left fun r hr ↦ (hreplies r hr).keep_part
  obtain ⟨epilogue, hchars⟩ := e.exists_keep_chars nl (replies.map (part nl))
  have hdocument : { e with epilogue := epilogue }.Separates nl (replies.map (part nl)) :=
    ⟨hseparates.boundary, hseparates.preamble, hseparates.parts⟩
  have hsplit := hdocument.split_chars hparts
  rw [hkeep] at hsplit
  rw [hchars]
  exact hsplit

theorem map_ofPart_part {replies : List Reply} (hreplies : ∀ r ∈ replies, r.Fits nl) :
    (replies.map (part nl)).map PartOutcome.ofPart = replies.map outcome := by
  rw [List.map_map]
  refine List.map_congr_left fun r hr ↦ ?_
  rw [Function.comp_apply, (hreplies r hr).ofPart_part]

end Reply

/-- A part of the document: a reply, or the replies to a changeset in a document of their own. -/
inductive ReplyPart
  | single (reply : Reply)
  | changeset (mime : Headers) (envelope : Envelope) (replies : List Reply)
  deriving DecidableEq, Repr

namespace ReplyPart

variable {nl : LineEnding} {item : ReplyPart}

def part (nl : LineEnding) : ReplyPart → Part
  | single reply => reply.part nl
  | changeset mime envelope replies =>
    ⟨mime, String.ofList (envelope.chars nl (replies.map (Reply.part nl)))⟩

def outcome : ReplyPart → ResponsePart
  | single reply => .single reply.outcome
  | changeset _ _ replies => .changeset (replies.map Reply.outcome)

inductive Fits (nl : LineEnding) : ReplyPart → Prop
  | single {reply : Reply} (h : reply.Fits nl) : Fits nl (single reply)
  | changeset {mime : Headers} {envelope : Envelope} {replies : List Reply} {contentType : String}
    (hmime : ∀ header ∈ mime, IsHeader header)
    (hcontentType : Headers.value? "Content-Type" mime = some contentType)
    (hboundary : NamesBoundary envelope.boundary contentType)
    (hseparates : envelope.Separates nl (replies.map (Reply.part nl)))
    (hreplies : ∀ reply ∈ replies, reply.Fits nl) : Fits nl (changeset mime envelope replies)

theorem Fits.hasHeaders (h : item.Fits nl) : (item.part nl).HasHeaders := by
  cases h with
  | single h => exact h.hasHeaders
  | @changeset mime envelope replies contentType hmime hcontentType =>
    refine ⟨?_, hmime⟩
    rintro rfl
    contradiction

end ReplyPart

namespace ResponsePart

theorem isMultipart_of_namesBoundary {b contentType : String} (h : NamesBoundary b contentType) :
    isMultipart contentType := by
  obtain ⟨rest, hrest⟩ := h.mixed
  have hname : "multipart/mixed".toList.map Char.toLower = "multipart/mixed".toList := by decide
  rw [isMultipart, ← hrest, Text.lower, List.map_append, hname, Text.afterPrefix?_append]
  rfl

theorem isMultipart_application (parameters : String) :
    isMultipart ("application/http" ++ parameters) = false := by
  rw [isMultipart, String.toList_append]
  rfl

variable {nl : LineEnding} {item : ReplyPart} {items : List ReplyPart} {e : Envelope} {p : Part}
  {parts : List Part} {b contentType : String}

theorem ofPart_single {parameters : String}
    (h : p.contentType? = some ("application/http" ++ parameters)) :
    ofPart p = .ok (.single (PartOutcome.ofPart p)) := by
  rw [ofPart, h, Option.getD_some, isMultipart_application]
  rfl

theorem ofPart_changeset (h : p.contentType? = some contentType)
    (hnames : NamesBoundary b contentType) (hb : IsBoundary b)
    (hsplit : split b p.body = .ok parts) :
    ofPart p = .ok (.changeset (parts.map PartOutcome.ofPart)) := by
  rw [ofPart, h, Option.getD_some, isMultipart_of_namesBoundary hnames]
  show (do
    let b ← boundary contentType
    let parts ← split b p.body
    return ResponsePart.changeset (parts.map PartOutcome.ofPart)) = _
  rw [boundary_eq_ok hb hnames]
  show (do
    let parts ← split b p.body
    return ResponsePart.changeset (parts.map PartOutcome.ofPart)) = _
  rw [hsplit]
  rfl

theorem ofPart_keep_part (h : item.Fits nl) :
    ofPart ((item.part nl).keep nl) = .ok item.outcome := by
  cases h with
  | @single reply h =>
    obtain ⟨parameters, hvalue⟩ := h.contentType
    have hcontentType : (reply.part nl).contentType? = some ("application/http" ++ parameters) :=
      hvalue
    rw [ReplyPart.part, h.keep_part, ofPart_single hcontentType, h.ofPart_part]
    rfl
  | @changeset mime envelope replies contentType hmime hcontentType hnames hseparates hreplies =>
    have hpart : ((ReplyPart.changeset mime envelope replies).part nl).keep nl =
        ⟨mime, String.ofList (nl.keep (envelope.chars nl (replies.map (Reply.part nl))))⟩ := by
      rw [Part.keep, ReplyPart.part]
      dsimp only
      rw [String.toList_ofList]
    have hread := ofPart_changeset
      (p := ⟨mime, String.ofList (nl.keep (envelope.chars nl (replies.map (Reply.part nl))))⟩)
      hcontentType hnames hseparates.boundary (Reply.split_keep_chars hseparates hreplies)
    rw [hpart, hread, Reply.map_ofPart_part hreplies]
    rfl

/-- Reading a response to a batch gives what it was written from. -/
theorem ofBody_written (hboundary : NamesBoundary e.boundary contentType)
    (hseparates : e.Separates nl (items.map (ReplyPart.part nl)))
    (hitems : ∀ item ∈ items, item.Fits nl) :
    ofBody contentType (String.ofList (e.chars nl (items.map (ReplyPart.part nl)))) =
      .ok (items.map ReplyPart.outcome) := by
  have hparts : ∀ p ∈ items.map (ReplyPart.part nl), p.HasHeaders := by
    intro p hp
    obtain ⟨item, hitem, rfl⟩ := List.mem_map.1 hp
    exact (hitems item hitem).hasHeaders
  have hread : ((items.map (ReplyPart.part nl)).map (Part.keep nl)).mapM ofPart =
      .ok (items.map ReplyPart.outcome) := by
    rw [List.map_map]
    exact Except.mapM_map_eq_ok fun item hitem ↦ ofPart_keep_part (hitems item hitem)
  rw [ofBody, boundary_eq_ok hseparates.boundary hboundary]
  show (do
    let parts ← split e.boundary (String.ofList (e.chars nl (items.map (ReplyPart.part nl))))
    parts.mapM ofPart) = _
  rw [hseparates.split_chars hparts]
  exact hread

/-- A response without headers whose body has blank lines, and a changeset whose document ends with
a carriage return. -/
def mixedReplies : List ReplyPart :=
  [.single ⟨[("Content-Type", "application/http"), ("Content-ID", "7")], "Not Found",
      ⟨404, [], "\n\nnone\n\n"⟩⟩,
    .changeset [("content-type", "multipart/mixed; boundary=\"inner\"")]
      ⟨"inner", some "inside", some "end\r"⟩
      [⟨[("Content-ID", "1"), ("Content-Type", "application/http; msgtype=response")], "Created",
          ⟨201, [("Location", "Products(1)"), ("ETag", "")], "--outer"⟩⟩,
        ⟨[("Content-Type", "application/http")], "", ⟨204, [], ""⟩⟩]]

def mixedEnvelope : Envelope :=
  ⟨"batch", some "before", none⟩

theorem ofBody_mixedReplies :
    mixedEnvelope.Separates .lf (mixedReplies.map (ReplyPart.part .lf)) ∧
      (∀ item ∈ mixedReplies, item.Fits .lf) ∧
      ofBody "multipart/mixed; boundary=batch; charset=utf-8"
        (String.ofList (mixedEnvelope.chars .lf (mixedReplies.map (ReplyPart.part .lf)))) =
          .ok (mixedReplies.map ReplyPart.outcome) := by
  have hboundary : NamesBoundary "batch" "multipart/mixed; boundary=batch; charset=utf-8" :=
    .bare "; charset=utf-8" fun c hc ↦ .inl (Option.some.inj hc).symm
  have hseparates : mixedEnvelope.Separates .lf (mixedReplies.map (ReplyPart.part .lf)) := by
    refine ⟨by decide, by decide, ?_⟩
    simp only [mixedReplies, List.map_cons, List.map_nil, List.forall_mem_cons, ReplyPart.part,
      Reply.part, Part.written, Part.section, Envelope.chars, List.flatMap_cons, List.flatMap_nil,
      String.toList_ofList]
    decide +kernel
  have hitems : ∀ item ∈ mixedReplies, item.Fits .lf := by
    intro item hitem
    rw [mixedReplies, List.mem_cons, List.mem_singleton] at hitem
    rcases hitem with rfl | rfl
    · exact .single ⟨by decide, ⟨"", by decide⟩, by decide, by decide, by decide, by decide⟩
    · refine .changeset (by decide) rfl (.quoted "") (by decide +kernel) fun reply hreply ↦ ?_
      rw [List.mem_cons, List.mem_singleton] at hreply
      rcases hreply with rfl | rfl
      · exact ⟨by decide, ⟨"; msgtype=response", by decide⟩, by decide, by decide, by decide,
          by decide⟩
      · exact ⟨by decide, ⟨"", by decide⟩, by decide, by decide, by decide, by decide⟩
  exact ⟨hseparates, hitems, ofBody_written hboundary hseparates hitems⟩

end ResponsePart
end OData

import Mathlib.Data.List.Forall2
import OData.Guid
import OData.Proofs.Batch.Layout
import OData.Proofs.Batch.Run
import OData.Proofs.Multipart.Document
import OData.Text.Digits

/-!
The document of a batch, split again: its parts are those of the layout, and every operation is the
request that was queued, as long as no request has a delimiter in it.
-/

namespace OData

open Multipart

/-- Letters, digits and hyphens. -/
def IsIdentifier (id : String) : Prop :=
  ∀ c ∈ id.toList, c.isAlphanum ∨ c = '-'

namespace IsIdentifier

variable {id kind : String}

theorem not_mem (h : IsIdentifier id) {c : Char} (hc : c.isAlphanum = false) (hne : c ≠ '-') :
    c ∉ id.toList := by
  intro hmem
  rcases h c hmem with halphanum | rfl
  · rw [hc] at halphanum
    contradiction
  · exact hne rfl

theorem no_blank (h : IsIdentifier id) : ∀ c ∈ id.toList, Text.isBlank c = false := by
  intro c hc
  rcases h c hc with halphanum | rfl
  · exact Text.isBlank_of_isAlphanum halphanum
  · rfl

theorem isBoundary_append (h : IsIdentifier id) (hkind : IsBoundary kind) :
    IsBoundary (kind ++ id) := by
  constructor
  case ne_nil =>
    rw [String.toList_append]
    exact List.append_ne_nil_of_left_ne_nil hkind.ne_nil _
  case no_blank =>
    rw [String.toList_append]
    exact List.forall_mem_append.2 ⟨hkind.no_blank, h.no_blank⟩
  case no_semicolon =>
    rw [String.toList_append, List.mem_append]
    exact not_or.2 ⟨hkind.no_semicolon, h.not_mem rfl (by decide)⟩
  case no_quote =>
    rw [String.toList_append, List.mem_append]
    exact not_or.2 ⟨hkind.no_quote, h.not_mem rfl (by decide)⟩

end IsIdentifier

theorem Guid.isIdentifier_text (g : Guid) : IsIdentifier g.text := by
  have hdigit : ∀ n : Fin 16, (Text.hexDigitLower n).isAlphanum := by decide
  have hdigits : ∀ c ∈ g.octets.flatMap Text.hexPairLower, c.isAlphanum := by
    intro c hc
    obtain ⟨octet, -, hc⟩ := List.mem_flatMap.1 hc
    have hlt := octet.toNat_lt
    rw [Text.hexPairLower, List.mem_cons, List.mem_singleton] at hc
    rcases hc with rfl | rfl
    · exact hdigit ⟨octet.toNat / 16, by omega⟩
    · exact hdigit ⟨octet.toNat % 16, by omega⟩
  intro c hc
  rw [Guid.text, String.toList_ofList, Guid.chars] at hc
  simp only [List.mem_append, List.mem_cons] at hc
  rcases hc with (((hc | rfl | hc) | rfl | hc) | rfl | hc) | rfl | hc
  case inr.inr => exact .inl (hdigits c (List.mem_of_mem_drop hc))
  case inr.inl => exact .inr rfl
  case inl.inl.inl.inl => exact .inl (hdigits c (List.mem_of_mem_take hc))
  all_goals first
    | exact .inr rfl
    | exact .inl (hdigits c (List.mem_of_mem_drop (List.mem_of_mem_take hc)))

/-- A part that stands for an operation: the request as it was queued, under the number that it has
if it is a write. -/
structure Multipart.Part.Carries {κ : Type} (p : Part) (op : Operation κ) : Prop where
  contentType : p.contentType? = some "application/http"
  contentId : p.header? "Content-ID" = op.contentId.map toString
  body : p.body.toList = op.request.chars

namespace Operation

variable {κ : Type} {op : Operation κ} {pattern : List Char}

theorem part_carries (op : Operation κ) : op.part.Carries op := by
  constructor
  case contentType => rfl
  case contentId =>
    rw [part]
    cases op.contentId <;> rfl
  case body => exact String.toList_ofList

theorem part_headers (op : Operation κ) : op.part.headers =
    ("Content-Type", "application/http") :: ("Content-Transfer-Encoding", "binary") ::
      op.contentId.toList.map fun n ↦ ("Content-ID", toString n) := by
  rw [part]
  cases op.contentId <;> rfl

theorem isDigit_of_mem_toString {n : Nat} {c : Char} (hc : c ∈ (toString n).toList) : c.isDigit := by
  have htext : (toString n).toList = Nat.toDigits 10 n := String.toList_ofList
  rw [htext] at hc
  exact Nat.isDigit_of_mem_toDigits (by decide) (by decide) hc

theorem isHeader_contentId (n : Nat) : IsHeader ("Content-ID", toString n) := by
  have hblank : ∀ c ∈ (toString n).toList, Text.isBlank c = false :=
    fun c hc ↦ Text.isBlank_of_isDigit (isDigit_of_mem_toString hc)
  have hname : IsHeader ("Content-ID", "") := by decide
  exact hname.withValue (Text.trimmed_of_forall hblank) fun hc ↦ absurd (hblank _ hc) (by decide)

theorem part_hasHeaders (op : Operation κ) : op.part.HasHeaders := by
  constructor
  case ne_nil =>
    rw [part_headers]
    exact List.cons_ne_nil _ _
  case isHeader =>
    intro header hheader
    rw [part_headers, List.mem_cons, List.mem_cons, List.mem_map] at hheader
    rcases hheader with rfl | rfl | ⟨n, -, rfl⟩
    · decide
    · decide
    · exact isHeader_contentId n

/-- In a part only the request itself can have an underscore. -/
theorem infix_request_of_infix_part (hp : '_' ∈ pattern) (ho : OneLine pattern)
    (h : pattern <:+: op.part.written .crlf) : pattern <:+: op.request.chars := by
  have hheaders : ∀ header ∈ op.part.headers, ¬ pattern <:+: Headers.line header := by
    intro header hheader hinfix
    have hline : '_' ∈ Headers.line header := hinfix.subset hp
    rw [part_headers, List.mem_cons, List.mem_cons, List.mem_map] at hheader
    rcases hheader with rfl | rfl | ⟨n, -, rfl⟩
    · exact absurd hline (by decide)
    · exact absurd hline (by decide)
    · rcases List.mem_append.1 hline with hname | hvalue
      · have hno : '_' ∉ "Content-ID".toList ++ ": ".toList := by decide
        exact hno hname
      · exact absurd (isDigit_of_mem_toString hvalue) (by decide)
  have hbody := Part.infix_body_of_infix_written (List.ne_nil_of_mem hp) ho hheaders h
  rwa [(part_carries op).body] at hbody

end Operation

namespace Batch

variable {κ : Type} {b : Batch κ}

/-- Each boundary has the name of its kind and an identifier, and no queued request has one of the
delimiters in it. -/
structure HasOwnBoundaries (b : Batch κ) : Prop where
  boundary : ∃ id, IsIdentifier id ∧ b.boundary = "batch_" ++ id
  changesetBoundary : ∃ id, IsIdentifier id ∧ b.changesetBoundary = "changeset_" ++ id
  requests : ∀ op ∈ b.operations, ¬ delimiter b.boundary <:+: op.request.chars
  changesetRequests : ∀ op ∈ b.operations, ¬ delimiter b.changesetBoundary <:+: op.request.chars

namespace HasOwnBoundaries

theorem isBoundary (h : b.HasOwnBoundaries) : IsBoundary b.boundary := by
  obtain ⟨id, hid, heq⟩ := h.boundary
  rw [heq]
  exact hid.isBoundary_append (by decide)

theorem isBoundary_changeset (h : b.HasOwnBoundaries) : IsBoundary b.changesetBoundary := by
  obtain ⟨id, hid, heq⟩ := h.changesetBoundary
  rw [heq]
  exact hid.isBoundary_append (by decide)

theorem underscore_mem (h : b.HasOwnBoundaries) : '_' ∈ delimiter b.boundary := by
  obtain ⟨id, -, heq⟩ := h.boundary
  simp [delimiter, heq]

theorem underscore_mem_changeset (h : b.HasOwnBoundaries) :
    '_' ∈ delimiter b.changesetBoundary := by
  obtain ⟨id, -, heq⟩ := h.changesetBoundary
  simp [delimiter, heq]

theorem not_infix_append (h : b.HasOwnBoundaries) {xs ys : List Char} (hys : '_' ∉ ys)
    (hxs : ¬ "--batch_".toList <:+: xs) : ¬ delimiter b.boundary <:+: xs ++ ys := by
  obtain ⟨id, -, heq⟩ := h.boundary
  have hdelimiter : delimiter b.boundary = "--batch".toList ++ ['_'] ++ id.toList := by
    simp [delimiter, heq]
  intro hinfix
  apply hxs
  -- An occurrence does not end before the underscore of the delimiter.
  have hkind : "--batch".toList ++ ['_'] <:+: xs ++ ys := by
    rw [hdelimiter] at hinfix
    exact (List.prefix_append _ _).isInfix.trans hinfix
  exact Text.infix_of_infix_append hys hkind

theorem hasHeaders_slotPart (h : b.HasOwnBoundaries) (slot : Slot (Operation κ)) :
    (b.slotPart slot).HasHeaders := by
  cases slot with
  | read op => exact op.part_hasHeaders
  | changeset writes => exact hasHeaders_nested h.isBoundary_changeset _

theorem separates_changeset (h : b.HasOwnBoundaries) {writes : List (Operation κ)}
    (hwrites : ∀ op ∈ writes, op ∈ b.operations) :
    Envelope.Separates .crlf ⟨b.changesetBoundary, none, some ""⟩ (writes.map Operation.part) := by
  refine ⟨h.isBoundary_changeset, nofun, fun p hp hinfix ↦ ?_⟩
  obtain ⟨op, hop, rfl⟩ := List.mem_map.1 hp
  apply h.changesetRequests op (hwrites op hop)
  exact op.infix_request_of_infix_part h.underscore_mem_changeset
    h.isBoundary_changeset.delimiter_oneLine hinfix

theorem not_infix_read (h : b.HasOwnBoundaries) {op : Operation κ} (hop : op ∈ b.operations) :
    ¬ delimiter b.boundary <:+: op.part.written .crlf := by
  intro hinfix
  apply h.requests op hop
  exact op.infix_request_of_infix_part h.underscore_mem h.isBoundary.delimiter_oneLine hinfix

theorem not_infix_changeset (h : b.HasOwnBoundaries) {writes : List (Operation κ)}
    (hwrites : ∀ op ∈ writes, op ∈ b.operations) :
    ¬ delimiter b.boundary <:+: (b.slotPart (.changeset writes)).written .crlf := by
  obtain ⟨id, hid, heq⟩ := h.changesetBoundary
  have hunderscore : '_' ∉ id.toList := hid.not_mem rfl (by decide)
  have hline := h.isBoundary.delimiter_oneLine
  have hheader : ∀ header ∈ (b.slotPart (.changeset writes)).headers,
      ¬ delimiter b.boundary <:+: Headers.line header := by
    intro header hheader
    obtain rfl := List.mem_singleton.1 hheader
    have hline : Headers.line ("Content-Type", contentType b.changesetBoundary) =
        "Content-Type".toList ++ ": ".toList ++ "multipart/mixed; boundary=".toList ++
          "changeset_".toList ++ id.toList := by
      rw [Headers.line, toList_contentType, heq, String.toList_append,
        List.append_assoc _ _ id.toList, List.append_assoc _ _ (_ ++ id.toList)]
    rw [hline]
    exact h.not_infix_append hunderscore (by decide)
  have hclosing : ¬ delimiter b.boundary <:+: delimiter b.changesetBoundary ++ ['-', '-'] := by
    have htext : delimiter b.changesetBoundary ++ ['-', '-'] =
        "--changeset_".toList ++ (id.toList ++ ['-', '-']) := by
      simp [delimiter, heq]
    rw [htext]
    apply h.not_infix_append
    · rw [List.mem_append]
      exact not_or.2 ⟨hunderscore, by decide⟩
    · decide
  intro hinfix
  have hbody := Part.infix_body_of_infix_written (delimiter_ne_nil _) hline hheader hinfix
  have hchars : (b.slotPart (.changeset writes)).body.toList =
      Multipart.chars b.changesetBoundary (writes.map Operation.part) := String.toList_ofList
  rw [hchars] at hbody
  rcases infix_chars (delimiter_ne_nil _) hline hbody with hdelimiter | ⟨p, hp, hpart⟩
  · exact hclosing hdelimiter
  · obtain ⟨op, hop, rfl⟩ := List.mem_map.1 hp
    exact h.not_infix_read (hwrites op hop) hpart

theorem separates (h : b.HasOwnBoundaries) :
    Envelope.Separates .crlf ⟨b.boundary, none, some ""⟩
      ((Slot.arrange Operation.isWrite b.operations).map b.slotPart) := by
  refine ⟨h.isBoundary, nofun, fun p hp ↦ ?_⟩
  obtain ⟨slot, hslot, rfl⟩ := List.mem_map.1 hp
  cases slot with
  | read op => exact h.not_infix_read (Slot.of_read_mem_arrange hslot).1
  | changeset writes =>
    obtain rfl := Slot.of_changeset_mem_arrange hslot
    exact h.not_infix_changeset fun op hop ↦ List.mem_of_mem_filter hop

end HasOwnBoundaries

/-- What a part says of the slot that it stands for. -/
inductive Encodes (b : Batch κ) : Slot Nat → Part → Prop
  | read {i : Nat} {op : Operation κ} {p : Part} (hop : b.operations[i]? = some op)
    (hread : op.contentId = none) (hp : p.Carries op) : Encodes b (.read i) p
  | changeset {writes : List Nat} {p : Part} {contentType : String} {parts : List Part}
    (hwrites : writes.map (b.operations[·]?) = (b.operations.filter Operation.isWrite).map some)
    (hcontentType : p.contentType? = some contentType)
    (hmixed : "multipart/mixed".toList <+: contentType.toList)
    (hboundary : Multipart.boundary contentType = .ok b.changesetBoundary)
    (hsplit : Multipart.split b.changesetBoundary p.body = .ok parts)
    (hparts : List.Forall₂ Part.Carries parts (b.operations.filter Operation.isWrite)) :
    Encodes b (.changeset writes) p

theorem encodes_slotPart (h : b.HasOwnBoundaries) {slot : Slot (Operation κ)}
    (hslot : slot ∈ Slot.arrange Operation.isWrite b.operations) {places : Slot Nat}
    (hplaces : places.map (b.operations[·]?) = slot.map some) :
    b.Encodes places (b.slotPart slot) := by
  cases slot with
  | read op =>
    cases places with
    | changeset writes => contradiction
    | read i =>
      have hread := (Slot.of_read_mem_arrange hslot).2
      refine .read (Slot.read.inj hplaces) ?_ op.part_carries
      rwa [Operation.isWrite, Option.isSome_eq_false_iff, Option.isNone_iff_eq_none] at hread
  | changeset ops =>
    obtain rfl := Slot.of_changeset_mem_arrange hslot
    cases places with
    | read i => contradiction
    | changeset writes =>
      have hmem : ∀ op ∈ b.operations.filter Operation.isWrite, op ∈ b.operations :=
        fun op hop ↦ List.mem_of_mem_filter hop
      have hnames := namesBoundary_contentType b.changesetBoundary
      refine .changeset (Slot.changeset.inj hplaces) rfl hnames.mixed
        (boundary_eq_ok h.isBoundary_changeset hnames)
        (split_text (h.separates_changeset hmem) ?_) ?_
      · intro p hp
        obtain ⟨op, -, rfl⟩ := List.mem_map.1 hp
        exact op.part_hasHeaders
      · rw [List.forall₂_map_left_iff, List.forall₂_same]
        exact fun op _ ↦ op.part_carries

def zeroGuid : Guid :=
  ⟨List.replicate 16 0, rfl⟩

/-- Two writes, the second with a body, and a read before each. -/
def alternating : Batch Nat :=
  ((BatchRun.start BatchRun.catalogue ("batch_" ++ zeroGuid.text) ("changeset_" ++ zeroGuid.text)).run
    [.call (.get (.collection "Products" {})), .call (.delete (.uri "Products(1)")),
      .call (.get (.collection "Categories" {})),
      .call (.insert ⟨0⟩ "Products" [("Name", .string "--batch\r\n\r\n")] [])]).batch

end Batch
end OData

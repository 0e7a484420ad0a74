import Manuscript.Proofs.Markup.Fragment
import Manuscript.Proofs.Markup.Mapping
import Manuscript.Proofs.Placeholder.Conservation

namespace Manuscript

open Glyph Reader

namespace Reader

theorem breakAt_chars {p : Char → Bool} {cs : List Char} (h : ∀ c ∈ cs, p c) {rest : List Glyph}
    (hrest : headIs p rest = false) :
    breakAt (fun glyphs => !headIs p glyphs) (cs.map .char ++ rest) = (cs.map .char, rest) := by
  induction cs with
  | nil =>
    rw [List.map_nil, List.nil_append]
    cases rest with
    | nil => rfl
    | cons g rest =>
      rw [breakAt, if_pos]
      simpa using hrest
  | cons c cs ih =>
    obtain ⟨hc, hcs⟩ := List.forall_mem_cons.mp h
    have hhead : headIs p (.char c :: (cs.map .char ++ rest)) = true := hc
    rw [List.map_cons, List.cons_append, breakAt, hhead, ih hcs]
    rfl

theorem run_literal_append (s : String) (rest : List Glyph) :
    (literal s).run (spell s ++ rest) = some ((), rest) := by
  have hstart (cs : List Char) : startsWith cs (cs.map .char ++ rest) = true := by
    induction cs with
    | nil => rfl
    | cons c cs ih => simpa [startsWith] using ih
  have hdrop : (spell s ++ rest).drop s.toList.length = rest :=
    List.drop_left' (List.length_map _)
  change (if startsWith s.toList (spell s ++ rest) then _ else _) = _
  rw [hdrop, if_pos]
  exact hstart s.toList

theorem run_someOf_append {p : Char → Bool} {cs : List Char} (hne : cs ≠ []) (h : ∀ c ∈ cs, p c)
    {rest : List Glyph} (hrest : headIs p rest = false) :
    (someOf p).run (cs.map .char ++ rest) = some (cs.map .char, rest) := by
  have hsome : (cs.map Glyph.char).isEmpty = false := by simpa using hne
  rw [Reader.someOf, run_someUpTo, breakAt_chars h hrest, hsome]
  rfl

end Reader

inductive Numeral where
  | token (digits : List Char)
  | callout (digits : List Char)

namespace Numeral

def digits : Numeral → List Char
  | token digits => digits
  | callout digits => digits

def glyphs : Numeral → List Glyph
  | token digits => [.token digits]
  | callout digits => spell "<" ++ (digits.map .char ++ spell ">")

def cause (offset : Nat) : Numeral → Cause
  | token digits => .placeholderRange (String.ofList digits) offset
  | callout digits => .calloutRange (String.ofList digits) offset

end Numeral

theorem Numeral.kind_cause (mark : Numeral) (offset : Nat) :
    (mark.cause offset).kind = .grammar := by
  cases mark <;> rfl

theorem Numeral.labels_cause (mark : Numeral) (offset : Nat) :
    (mark.cause offset).labels =
      [⟨offset, Text.byteCount (mark.glyphs.flatMap chars), (mark.cause offset).message⟩] := by
  have hreserved : reservedChar.utf8Size = 3 := by decide
  have hopen : '<'.utf8Size = 1 := by decide
  have hclose : '>'.utf8Size = 1 := by decide
  cases mark with
  | token digits =>
    have hsize : (String.ofList digits).utf8ByteSize + 6 =
        Text.byteCount ((Numeral.token digits).glyphs.flatMap chars) := by
      simp [glyphs, chars, Text.utf8ByteSize_ofList, Text.byteCount_append, hreserved]
      omega
    rw [← hsize]
    rfl
  | callout digits =>
    have hsize : (String.ofList digits).utf8ByteSize + 2 =
        Text.byteCount ((Numeral.callout digits).glyphs.flatMap chars) := by
      simp [glyphs, chars, spell, flatMap_chars_map_char, Text.utf8ByteSize_ofList,
        Text.byteCount_append, hopen, hclose]
      omega
    rw [← hsize]
    rfl

inductive ClosesLine : List Glyph → Prop
  | finish {rest : List Glyph} : atLineEnd rest → ClosesLine rest
  | space {rest : List Glyph} : ClosesLine rest → ClosesLine (.char ' ' :: rest)
  | callout {digits : List Char} {rest : List Glyph} :
      digits ≠ [] → (∀ d ∈ digits, d.isDigit) → ClosesLine rest →
      ClosesLine ((Numeral.callout digits).glyphs ++ rest)

def Numeral.StandsBefore (rule : Rule) (after : List Glyph) : Numeral → Prop
  | token _ => True
  | callout digits =>
      rule = .callouts ∧ digits ≠ [] ∧ (∀ d ∈ digits, d.isDigit) ∧ ClosesLine after

def MarkedAt (rule : Rule) (glyphs before : List Glyph) (mark : Numeral) : Prop :=
  ∃ after, glyphs = before ++ (mark.glyphs ++ after) ∧ mark.StandsBefore rule after

structure FirstOutOfRange (rule : Rule) (glyphs before : List Glyph) (mark : Numeral) : Prop where
  marked : MarkedAt rule glyphs before mark
  outOfRange : inRange mark.digits = false
  first : ∀ earlier other, MarkedAt rule glyphs earlier other → earlier.length < before.length →
    inRange other.digits

namespace Construct

def spacedMark : Reader (List Char) := do
  let _ ← spaces
  calloutMark

theorem run_calloutMark_append {digits : List Char} (hne : digits ≠ [])
    (h : ∀ d ∈ digits, d.isDigit) (rest : List Glyph) :
    calloutMark.run ((Numeral.callout digits).glyphs ++ rest) = some (digits, rest) := by
  have hclose : headIs Char.isDigit (spell ">" ++ rest) = false := rfl
  rw [calloutMark, Numeral.glyphs, List.append_assoc, List.append_assoc, run_bind,
    run_literal_append, Option.bind_some, run_bind, run_someOf_append hne h hclose, Option.bind_some,
    run_bind, run_literal_append, Option.bind_some, run_pure, flatMap_chars_map_char]

theorem run_calloutMark_eq_some_iff {glyphs rest : List Glyph} {digits : List Char} :
    calloutMark.run glyphs = some (digits, rest) ↔
      glyphs = (Numeral.callout digits).glyphs ++ rest ∧ digits ≠ [] ∧ ∀ d ∈ digits, d.isDigit := by
  constructor
  · intro h
    obtain ⟨taken, rfl, rfl, hdigits⟩ := yields_calloutMark _ _ _ h
    exact ⟨rfl, hdigits⟩
  · rintro ⟨rfl, hne, h⟩
    exact run_calloutMark_append hne h rest

def afterSpaces (glyphs : List Glyph) : List Glyph :=
  (breakAt (fun glyphs => !headIs (· == ' ') glyphs) glyphs).2

theorem afterSpaces_space (rest : List Glyph) : afterSpaces (.char ' ' :: rest) = afterSpaces rest :=
  rfl

theorem afterSpaces_of_not {glyphs : List Glyph} (h : headIs (· == ' ') glyphs = false) :
    afterSpaces glyphs = glyphs :=
  congrArg Prod.snd (breakAt_chars (List.forall_mem_nil _) h)

theorem isSome_calloutTail (glyphs : List Glyph) :
    (calloutTail.run glyphs).isSome = atLineEnd (afterSpaces (manyFrom spacedMark glyphs).2) := by
  change (if _ then _ else none : Option _).isSome = _
  split
  · next h => exact h.symm
  · next h => exact (Bool.eq_false_iff.mpr h).symm

theorem run_spacedMark (glyphs : List Glyph) :
    spacedMark.run glyphs = calloutMark.run (afterSpaces glyphs) := rfl

theorem length_lt_of_run_spacedMark {glyphs left : List Glyph} {digits : List Char}
    (h : spacedMark.run glyphs = some (digits, left)) : left.length < glyphs.length := by
  rw [run_spacedMark, run_calloutMark_eq_some_iff] at h
  calc left.length
    _ < ((Numeral.callout digits).glyphs ++ left).length := by
        rw [List.length_append]
        exact Nat.lt_add_of_pos_left (Nat.succ_pos _)
    _ = (afterSpaces glyphs).length := by rw [h.1]
    _ ≤ glyphs.length := List.IsSuffix.length_le ⟨_, breakAt_append ..⟩

theorem isSome_calloutTail_space (rest : List Glyph) :
    (calloutTail.run (.char ' ' :: rest)).isSome = (calloutTail.run rest).isSome := by
  rw [isSome_calloutTail, isSome_calloutTail]
  cases hr : spacedMark.run rest with
  | none =>
    have hspace : spacedMark.run (.char ' ' :: rest) = none := hr
    rw [manyFrom, manyFrom, take?_of_run_eq_none hr, take?_of_run_eq_none hspace]
    exact congrArg atLineEnd (afterSpaces_space rest)
  | some found =>
    obtain ⟨digits, left⟩ := found
    have hspace : spacedMark.run (.char ' ' :: rest) = some (digits, left) := hr
    rw [manyFrom_of_run hr (length_lt_of_run_spacedMark hr),
      manyFrom_of_run hspace (length_lt_of_run_spacedMark hspace)]

theorem isSome_calloutTail_callout {digits : List Char} (hne : digits ≠ [])
    (h : ∀ d ∈ digits, d.isDigit) (rest : List Glyph) :
    (calloutTail.run ((Numeral.callout digits).glyphs ++ rest)).isSome =
      (calloutTail.run rest).isSome := by
  have hrun : spacedMark.run ((Numeral.callout digits).glyphs ++ rest) = some (digits, rest) := by
    rw [run_spacedMark, afterSpaces_of_not rfl, run_calloutMark_append hne h]
  rw [isSome_calloutTail, isSome_calloutTail,
    manyFrom_of_run hrun (length_lt_of_run_spacedMark hrun)]

theorem isSome_calloutTail_of_not {glyphs : List Glyph} (hspace : headIs (· == ' ') glyphs = false)
    (hmark : calloutMark.run glyphs = none) :
    (calloutTail.run glyphs).isSome = atLineEnd glyphs := by
  have hrun : spacedMark.run glyphs = none := by rw [run_spacedMark, afterSpaces_of_not hspace, hmark]
  rw [isSome_calloutTail, manyFrom, take?_of_run_eq_none hrun]
  exact congrArg atLineEnd (afterSpaces_of_not hspace)

theorem startsWith_of_atLineEnd {glyphs : List Glyph} (h : atLineEnd glyphs) {c : Char}
    (hc : Cause.isNewline c = false) (cs : List Char) : startsWith (c :: cs) glyphs = false := by
  rcases glyphs with _ | ⟨d | digits, rest⟩
  · rfl
  · have hd : Cause.isNewline d = true := h
    have hne : c ≠ d := fun he => by rw [he, hd] at hc; cases hc
    rw [startsWith, beq_eq_false_iff_ne.mpr hne, Bool.false_and]
  · rfl

theorem not_space_of_atLineEnd {glyphs : List Glyph} (h : atLineEnd glyphs) :
    headIs (· == ' ') glyphs = false := by
  rcases glyphs with _ | ⟨c | digits, rest⟩
  · rfl
  · refine Bool.eq_false_iff.mpr fun hc => ?_
    obtain rfl : c = ' ' := beq_iff_eq.mp hc
    cases h
  · rfl

theorem closesLine_of_isSome {glyphs : List Glyph} (h : (calloutTail.run glyphs).isSome) :
    ClosesLine glyphs := by
  induction hn : glyphs.length using Nat.strongRecOn generalizing glyphs with
  | ind n ih =>
    cases hspace : headIs (· == ' ') glyphs with
    | true =>
      obtain ⟨c, rest, rfl, hc⟩ := char_of_headIs hspace
      obtain rfl : c = ' ' := beq_iff_eq.mp hc
      rw [isSome_calloutTail_space] at h
      exact .space (ih _ (hn ▸ Nat.lt_succ_self _) h rfl)
    | false =>
      cases hmark : calloutMark.run glyphs with
      | none => exact .finish (isSome_calloutTail_of_not hspace hmark ▸ h)
      | some found =>
        obtain ⟨digits, rest⟩ := found
        obtain ⟨rfl, hne, hdigits⟩ := run_calloutMark_eq_some_iff.mp hmark
        rw [isSome_calloutTail_callout hne hdigits] at h
        refine .callout hne hdigits (ih _ ?_ h rfl)
        rw [← hn, List.length_append]
        exact Nat.lt_add_of_pos_left (Nat.succ_pos _)

theorem isSome_calloutTail_iff {glyphs : List Glyph} :
    (calloutTail.run glyphs).isSome ↔ ClosesLine glyphs := by
  refine ⟨closesLine_of_isSome, fun h => ?_⟩
  induction h with
  | @finish rest hend =>
    have hmark : calloutMark.run rest = none := by
      rw [calloutMark, run_bind, run_literal_of_not (s := "<") (startsWith_of_atLineEnd hend rfl []),
        Option.bind_none]
    rw [isSome_calloutTail_of_not (not_space_of_atLineEnd hend) hmark, hend]
  | space _ ih => rwa [isSome_calloutTail_space]
  | callout hne hdigits _ ih => rwa [isSome_calloutTail_callout hne hdigits]

theorem run_calloutNumber_eq_some_iff {glyphs rest : List Glyph} {digits : List Char} :
    calloutNumber.run glyphs = some (digits, rest) ↔
      glyphs = (Numeral.callout digits).glyphs ++ rest ∧ digits ≠ [] ∧
        (∀ d ∈ digits, d.isDigit) ∧ ClosesLine rest := by
  have hrun : calloutNumber.run glyphs = (calloutMark.run glyphs).filter
      fun found => (calloutTail.run found.2).isSome := by
    rw [calloutNumber, run_bind]
    cases calloutMark.run glyphs with
    | none => rfl
    | some found =>
      change (if _ then _ else none : Option _).bind _ = if _ then _ else _
      split <;> rfl
  rw [hrun, Option.filter_eq_some_iff, run_calloutMark_eq_some_iff, isSome_calloutTail_iff]
  tauto

end Construct

namespace MarkedAt

variable {rule : Rule} {mark : Numeral} {g : Glyph} {glyphs before rest : List Glyph}

theorem not_nil : ¬ MarkedAt rule [] before mark := by
  rintro ⟨after, he, -⟩
  cases mark <;> simp [Numeral.glyphs, spell] at he

theorem cons_cons_iff : MarkedAt rule (g :: rest) (g :: before) mark ↔ MarkedAt rule rest before mark :=
  exists_congr fun _ => and_congr_left' (by rw [List.cons_append, List.cons_inj_right])

theorem head_eq {h : Glyph} (hmark : MarkedAt rule (g :: rest) (h :: before) mark) : h = g := by
  obtain ⟨after, he, -⟩ := hmark
  exact (List.cons.inj he).1.symm

theorem nil_token_iff {digits : List Char} :
    MarkedAt rule (.token digits :: rest) [] mark ↔ mark = .token digits := by
  constructor
  · rintro ⟨after, he, -⟩
    cases mark with
    | token ds => rw [Glyph.token.inj (List.cons.inj he).1]
    | callout ds => cases he
  · rintro rfl
    exact ⟨rest, rfl, trivial⟩

theorem nil_char_iff {c : Char} :
    MarkedAt rule (.char c :: rest) [] mark ↔
      ∃ digits after, mark = .callout digits ∧ rule = .callouts ∧
        Construct.calloutNumber.run (.char c :: rest) = some (digits, after) := by
  constructor
  · rintro ⟨after, he, hstands⟩
    cases mark with
    | token ds => cases he
    | callout ds =>
      obtain ⟨hrule, hstands⟩ := hstands
      exact ⟨ds, after, rfl, hrule, Construct.run_calloutNumber_eq_some_iff.mpr ⟨he, hstands⟩⟩
  · rintro ⟨ds, after, rfl, hrule, hrun⟩
    obtain ⟨he, hstands⟩ := Construct.run_calloutNumber_eq_some_iff.mp hrun
    exact ⟨after, he, hrule, hstands⟩

theorem unique {other : Numeral} (h : MarkedAt rule glyphs [] mark)
    (h' : MarkedAt rule glyphs [] other) : mark = other := by
  rcases glyphs with _ | ⟨c | digits, rest⟩
  · exact absurd h not_nil
  · obtain ⟨ds, after, rfl, -, hrun⟩ := nil_char_iff.mp h
    obtain ⟨ds', after', rfl, -, hrun'⟩ := nil_char_iff.mp h'
    rw [hrun] at hrun'
    cases hrun'
    rfl
  · rw [nil_token_iff.mp h, nil_token_iff.mp h']

end MarkedAt

namespace Fragment

variable {rule : Rule} {glyphs : List Glyph} {n : Nat}

theorem outOfRange?_cons (rule : Rule) (n : Nat) (g : Glyph) (rest : List Glyph) :
    (∃ mark, MarkedAt rule (g :: rest) [] mark ∧ inRange mark.digits = false ∧
        outOfRange? rule n (g :: rest) = some (mark.cause n)) ∨
      (∀ mark, MarkedAt rule (g :: rest) [] mark → inRange mark.digits) ∧
        outOfRange? rule n (g :: rest) = outOfRange? rule (n + Text.byteCount g.chars) rest := by
  cases g with
  | token digits =>
    rw [outOfRange?]
    cases hrange : inRange digits with
    | true =>
      refine .inr ⟨fun mark hmark => ?_, rfl⟩
      rw [MarkedAt.nil_token_iff.mp hmark]
      exact hrange
    | false => exact .inl ⟨.token digits, MarkedAt.nil_token_iff.mpr rfl, hrange, rfl⟩
  | char c =>
    by_cases hcallout : ∃ digits after, rule = .callouts ∧
        Construct.calloutNumber.run (.char c :: rest) = some (digits, after)
    · obtain ⟨digits, after, rfl, hrun⟩ := hcallout
      have hmark : MarkedAt .callouts (.char c :: rest) [] (.callout digits) :=
        MarkedAt.nil_char_iff.mpr ⟨digits, after, rfl, rfl, hrun⟩
      rw [outOfRange?.eq_3 _ _ _ _ _ hrun]
      cases hrange : inRange digits with
      | true =>
        refine .inr ⟨fun mark h => ?_, rfl⟩
        rw [h.unique hmark]
        exact hrange
      | false => exact .inl ⟨_, hmark, hrange, rfl⟩
    · refine .inr ⟨fun mark h => ?_, ?_⟩
      · obtain ⟨digits, after, -, hrule, hrun⟩ := MarkedAt.nil_char_iff.mp h
        exact absurd ⟨digits, after, hrule, hrun⟩ hcallout
      · refine outOfRange?.eq_4 _ _ _ _ fun digits after hrule hrun => ?_
        exact hcallout ⟨digits, after, hrule, hrun⟩

theorem outOfRange?_of_first {before : List Glyph} {mark : Numeral}
    (h : FirstOutOfRange rule glyphs before mark) (n : Nat) :
    outOfRange? rule n glyphs = some (mark.cause (n + Text.byteCount (before.flatMap chars))) := by
  induction before generalizing glyphs n with
  | nil =>
    cases glyphs with
    | nil => exact absurd h.marked MarkedAt.not_nil
    | cons g rest =>
      rcases outOfRange?_cons rule n g rest with ⟨other, hother, -, hscan⟩ | ⟨hall, -⟩
      · rw [hscan, h.marked.unique hother]
        rfl
      · exact absurd (hall mark h.marked) (by simp [h.outOfRange])
  | cons g before ih =>
    cases glyphs with
    | nil => exact absurd h.marked MarkedAt.not_nil
    | cons g' rest =>
      obtain rfl := h.marked.head_eq
      rcases outOfRange?_cons rule n g rest with ⟨other, hother, hout, -⟩ | ⟨-, hscan⟩
      · have hin := h.first [] other hother (Nat.succ_pos _)
        rw [hout] at hin
        cases hin
      · have hrest : FirstOutOfRange rule rest before mark :=
          ⟨MarkedAt.cons_cons_iff.mp h.marked, h.outOfRange, fun earlier other hother hlt =>
            h.first (g :: earlier) other (MarkedAt.cons_cons_iff.mpr hother) (Nat.succ_lt_succ hlt)⟩
        rw [hscan, ih hrest, List.flatMap_cons, Text.byteCount_append, Nat.add_assoc]

theorem exists_first_of_outOfRange? {cause : Cause} (h : outOfRange? rule n glyphs = some cause) :
    ∃ before mark, FirstOutOfRange rule glyphs before mark := by
  induction glyphs generalizing n with
  | nil => cases h
  | cons g rest ih =>
    rcases outOfRange?_cons rule n g rest with ⟨mark, hmark, hout, -⟩ | ⟨hall, hscan⟩
    · exact ⟨[], mark, hmark, hout, fun _ _ _ hlt => absurd hlt (Nat.not_lt_zero _)⟩
    · obtain ⟨before, mark, hfirst⟩ := ih (hscan ▸ h)
      refine ⟨g :: before, mark, MarkedAt.cons_cons_iff.mpr hfirst.marked, hfirst.outOfRange, ?_⟩
      rintro (_ | ⟨g', earlier⟩) other hother hlt
      · exact hall other hother
      · obtain rfl := hother.head_eq
        exact hfirst.first earlier other (MarkedAt.cons_cons_iff.mp hother)
          (Nat.lt_of_succ_lt_succ hlt)

theorem outOfRange?_eq_none_iff : outOfRange? rule n glyphs = none ↔
    ∀ before mark, MarkedAt rule glyphs before mark → inRange mark.digits := by
  constructor
  · intro h before mark hmark
    induction before generalizing glyphs n with
    | nil =>
      cases glyphs with
      | nil => exact absurd hmark MarkedAt.not_nil
      | cons g rest =>
        rcases outOfRange?_cons rule n g rest with ⟨_, _, _, hscan⟩ | ⟨hall, -⟩
        · rw [hscan] at h
          cases h
        · exact hall mark hmark
    | cons g before ih =>
      cases glyphs with
      | nil => exact absurd hmark MarkedAt.not_nil
      | cons g' rest =>
        obtain rfl := hmark.head_eq
        rcases outOfRange?_cons rule n g rest with ⟨_, _, _, hscan⟩ | ⟨-, hscan⟩
        · rw [hscan] at h
          cases h
        · exact ih (hscan ▸ h) (MarkedAt.cons_cons_iff.mp hmark)
  · intro hall
    refine Option.eq_none_iff_forall_ne_some.mpr fun cause h => ?_
    obtain ⟨before, mark, hfirst⟩ := exists_first_of_outOfRange? h
    exact absurd (hall before mark hfirst.marked) (by simp [hfirst.outOfRange])

theorem parse_of_first {options : Options} {text : String} {before : List Glyph} {mark : Numeral}
    (hrule : rule ≠ .attribution) (h : FirstOutOfRange rule (scan text.toList) before mark) :
    parse rule options text =
      .error (.of (mark.cause (Text.byteCount (before.flatMap chars)))) := by
  rw [parse.eq_2 _ _ _ hrule]
  simp only [outOfRange?_of_first h, Nat.zero_add]

/-- A fragment is read unless the scan of its text meets a mark whose number is out of range; the failure
then spans the first such mark. An attribution is two dashes, a space and a text in a single line. -/
theorem parse_outcome (options : Options) (text : String) :
    (∀ rule, rule ≠ .attribution →
      ((∃ elements, parse rule options text = .ok elements) ↔
        ∀ before mark, MarkedAt rule (scan text.toList) before mark → inRange mark.digits) ∧
      ∀ fault, parse rule options text = .error fault →
        ∃ before mark, FirstOutOfRange rule (scan text.toList) before mark ∧ fault.kind = .grammar ∧
          fault.labels = [⟨Text.byteCount (before.flatMap chars),
            Text.byteCount (mark.glyphs.flatMap chars), fault.message⟩]) ∧
    ∀ elements, parse .attribution options text = .ok elements ↔
      ∃ author : String, text = "-- " ++ author ∧ author ≠ "" ∧
        (∀ c ∈ author.toList, Cause.isNewline c = false) ∧ elements = [.text author] := by
  refine ⟨fun rule hrule => ?_, fun elements => parse_attribution_eq_ok_iff⟩
  rw [← outOfRange?_eq_none_iff (n := 0)]
  cases hscan : outOfRange? rule 0 (scan text.toList) with
  | none =>
    rw [parse_of_inRange hrule hscan]
    exact ⟨iff_of_true ⟨_, rfl⟩ rfl, fun _ => nofun⟩
  | some cause =>
    obtain ⟨before, mark, hfirst⟩ := exists_first_of_outOfRange? hscan
    rw [parse_of_first hrule hfirst]
    refine ⟨iff_of_false nofun nofun, fun fault hfault => ⟨before, mark, hfirst, ?_⟩⟩
    obtain rfl := Except.error.inj hfault
    exact ⟨mark.kind_cause _, mark.labels_cause _⟩

theorem parse_outcome_letter :
    (∃ elements, parse .plain ⟨none⟩ "a" = .ok elements) ↔
      ∀ before mark, MarkedAt .plain (scan "a".toList) before mark → inRange mark.digits :=
  ((parse_outcome ⟨none⟩ "a").1 .plain (by decide)).1

end Fragment

end Manuscript

import Manuscript.Proofs.Grammar.Constructs
import Manuscript.Proofs.Markup.Range

namespace Manuscript.Peg

open Peg.Expr Glyph Reader

variable {n : Nat} {options : Options} {digits cs : List Char} {rest : List Glyph}

theorem run_digits (h : ∀ d ∈ digits, d.isDigit) (hcs : ∀ c ∈ cs.head?, c.isDigit = false) (n : Nat) :
    Run grammar (star digit) ⟨n, digits ++ cs⟩ (some ([], ⟨n + Text.byteCount digits, cs⟩)) := by
  induction digits generalizing n with
  | nil => exact .stop (.charFails hcs)
  | cons d ds ih =>
    obtain ⟨hd, hds⟩ := List.forall_mem_cons.mp h
    have hmore := ih hds (n + d.utf8Size)
    rw [Nat.add_assoc] at hmore
    exact .more (.char hd) hmore

theorem run_someDigits (hne : digits ≠ []) (h : ∀ d ∈ digits, d.isDigit)
    (hcs : ∀ c ∈ cs.head?, c.isDigit = false) (n : Nat) :
    Run grammar (plus digit) ⟨n, digits ++ cs⟩ (some ([], ⟨n + Text.byteCount digits, cs⟩)) := by
  obtain ⟨d, ds, rfl⟩ := List.exists_cons_of_ne_nil hne
  obtain ⟨hd, hds⟩ := List.forall_mem_cons.mp h
  have hmore := run_digits hds hcs (n + d.utf8Size)
  rw [Nat.add_assoc] at hmore
  exact .seq (.char hd) hmore

theorem run_reserved (n : Nat) (cs : List Char) :
    Run grammar reserved ⟨n, reservedChar :: cs⟩ (some ([], ⟨n + reservedChar.utf8Size, cs⟩)) := by
  have hmark : (String.singleton reservedChar).toList = [reservedChar] := String.toList_singleton _
  have hrun : Run grammar reserved ⟨n, (String.singleton reservedChar).toList ++ cs⟩
      (some ([], ⟨n + Text.byteCount (String.singleton reservedChar).toList, cs⟩)) := .literal
  rwa [hmark] at hrun

def placeholderPair (n : Nat) (digits : List Char) : Tree :=
  .node .placeholder n (chars (.token digits))
    [.node .placeholderNumber (n + reservedChar.utf8Size) digits []]

theorem run_placeholder (hne : digits ≠ []) (h : ∀ d ∈ digits, d.isDigit) (n : Nat) :
    Run grammar (call .placeholder) (cursor n (.token digits :: rest))
      (some ([placeholderPair n digits], cursor (n + size [.token digits]) rest)) := by
  have htext : (Glyph.token digits :: rest).flatMap chars =
      reservedChar :: (digits ++ reservedChar :: rest.flatMap chars) := by
    simp [chars]
  have hnumber : Run grammar (call .placeholderNumber)
      ⟨n + reservedChar.utf8Size, digits ++ reservedChar :: rest.flatMap chars⟩
      (some ([.node .placeholderNumber (n + reservedChar.utf8Size) digits []],
        ⟨n + reservedChar.utf8Size + Text.byteCount digits, reservedChar :: rest.flatMap chars⟩)) := by
    refine .call (run_someDigits hne h ?_ _) rfl
    rintro c ⟨⟩
    decide
  have hclose := run_reserved (n + reservedChar.utf8Size + Text.byteCount digits) (rest.flatMap chars)
  have hsize : n + reservedChar.utf8Size + Text.byteCount digits + reservedChar.utf8Size =
      n + size [.token digits] := by
    simp [size, chars, Text.byteCount_append]
    omega
  rw [hsize] at hclose
  have hbody := Run.seq (run_reserved n _) (.seq hnumber (.seq hclose (.empty _)))
  rw [← htext] at hbody
  refine .call hbody ?_
  rw [cursor, htext]
  simp [chars, cursor]

theorem build_placeholderPair :
    build options (placeholderPair n digits) =
      checked n [.token digits] [.placeholder (reference digits)] := by
  have hbuild : build options (placeholderPair n digits) =
      if inRange digits then .ok [.placeholder (reference digits)]
      else .error (.number (.placeholderRange (String.ofList digits) n)) := by
    rw [placeholderPair, build]
    rfl
  rw [hbuild, checked, Fragment.outOfRange?]
  cases inRange digits <;> rfl

theorem chars_of_atReserved (h : atReserved rest) :
    ∃ left, rest.flatMap chars = reservedChar :: left := by
  rcases rest with _ | ⟨c | digits, rest⟩
  · cases h
  · have hc : c = reservedChar := by simpa [atReserved, atToken, headIs, isReserved] using h
    exact ⟨_, by rw [hc]; rfl⟩
  · exact ⟨_, rfl⟩

theorem not_placeholder {c : Char} (hrest : Scanned (.char c :: rest)) (n : Nat) :
    Run grammar (call .placeholder) (cursor n (.char c :: rest)) none := by
  refine .callFails ?_
  by_cases hc : c = reservedChar
  · subst hc
    refine .seqFailsAfter (run_reserved n _) ?_
    have hnumber : Reads (n + reservedChar.utf8Size) (call .placeholderNumber) (someOf Char.isDigit)
        fun t ps a => (TextPair .placeholderNumber (n + reservedChar.utf8Size) t ps a ∧ t ≠ []) ∧
          ∀ g ∈ a, ∃ c, g = .char c ∧ c.isDigit :=
      (reads_chars rfl (by decide)).yielding (Yields.someOf.mono fun _ _ h => h.2.2)
    obtain ⟨hsome, hnone⟩ := hnumber rest hrest.tail
    cases hread : (someOf Char.isDigit).run rest with
    | none => exact .seqFails (hnone hread)
    | some found =>
      obtain ⟨number, after⟩ := found
      obtain ⟨t, ps, rfl, hrun, ⟨⟨rfl, rfl, ht⟩, hne⟩, hdigits⟩ := hsome number after hread
      refine .seqFailsAfter hrun (.seqFails ?_)
      refine (tests_reserved _ _ (hrest.tail.suffix (List.suffix_append _ _))).2 ?_
      refine Bool.eq_false_iff.mpr fun hreserved => ?_
      obtain ⟨ds, rfl⟩ := exists_chars_of_tokenless ht
      obtain ⟨left, hleft⟩ := chars_of_atReserved hreserved
      have htoken : tokenRest? ((ds.map Glyph.char ++ after).flatMap chars) = some (ds, left) := by
        rw [List.flatMap_append, flatMap_chars_map_char, hleft]
        refine tokenRest?_of_digits (fun he => hne (congrArg _ he)) (fun d hd => ?_) left
        obtain ⟨c, hc, hdigit⟩ := hdigits (.char d) (List.mem_map_of_mem hd)
        rwa [Glyph.char.inj hc]
      rw [hrest.of_char.2 rfl] at htoken
      cases htoken
  · refine .seqFails (.literalFails fun hprefix => hc ?_)
    rw [String.toList_singleton] at hprefix
    exact (List.cons_prefix_cons.mp hprefix).1.symm

theorem reads_placeholder : ReadsElement options n (call .placeholder) Macro.token := by
  intro glyphs hg
  rcases glyphs with _ | ⟨c | digits, rest⟩
  · exact ⟨fun _ _ hr => (by cases hr), fun _ => .callFails (.seqFails (.literalFails (by decide)))⟩
  · exact ⟨fun _ _ hr => (by cases hr), fun _ => not_placeholder hg n⟩
  · obtain ⟨-, hne, hdigits⟩ := hg.of_token
    refine ⟨fun x left hr => ?_, fun hr => by cases hr⟩
    obtain ⟨rfl, rfl⟩ := Prod.mk.inj (Option.some.inj hr)
    exact ⟨[.token digits], _, rfl, run_placeholder hne hdigits n, List.cons_ne_nil _ _,
      .of_build build_placeholderPair⟩

theorem reads_spacedMark :
    Reads n (sequence [spaces, literal "<", plus digit, literal ">"]) Construct.spacedMark
      fun t _ _ => t ≠ [] := by
  refine Reads.bind reads_spaces ?_
  rintro gap _ _ ⟨rfl, rfl, -⟩
  refine skip (by decide) (Reads.bind ((Steps.ofChar (by decide)).plus _) ?_)
  rintro t _ _ ⟨rfl, rfl, -⟩
  exact skip (by decide) (.pure (by simp [spell]))

theorem tests_calloutTail :
    Tests calloutTail fun glyphs => (Construct.calloutTail.run glyphs).isSome := by
  have hmarks (n : Nat) : Reads n (star (sequence [spaces, literal "<", plus digit, literal ">"]))
      (many Construct.spacedMark) fun _ _ _ => True :=
    (Reads.many (fun _ => reads_spacedMark) (fun _ _ _ _ h => h) n).mono fun _ _ _ _ => trivial
  have hspaces (n : Nat) : Reads n spaces Reader.spaces fun _ _ _ => True :=
    reads_spaces.mono fun _ _ _ _ => trivial
  refine (Tests.after hmarks (.after hspaces tests_lineEnd.seq_empty)).congr fun glyphs => ?_
  rw [Construct.isSome_calloutTail]
  rfl

def calloutPair (n : Nat) (digits : List Char) : Tree :=
  .node .callout n ((Numeral.callout digits).glyphs.flatMap chars)
    [.node .calloutNumber (n + size (spell "<")) digits []]

theorem reads_callout :
    Reads n (call .callout) Construct.calloutNumber fun t ps digits =>
      t = (Numeral.callout digits).glyphs ∧ ps = [calloutPair n digits] := by
  have hreader : Construct.calloutNumber = (do
      Reader.literal "<"
      let digits ← someOf Char.isDigit
      Reader.literal ">"
      Reader.ahead fun glyphs => (Construct.calloutTail.run glyphs).isSome
      return digits.flatMap chars) := by
    simp only [Construct.calloutNumber, Construct.calloutMark, bind_assoc, pure_bind]
  rw [hreader]
  refine .compound rfl (skip (by decide) (Reads.bind (reads_chars rfl (by decide)) ?_))
  rintro t _ _ ⟨⟨rfl, rfl, ht⟩, -⟩
  obtain ⟨ds, rfl⟩ := exists_chars_of_tokenless ht
  refine skip (by decide) (Reads.bind (.ahead tests_calloutTail) ?_)
  rintro _ _ _ ⟨rfl, rfl⟩
  refine .pure ⟨?_, ?_⟩
  · rw [flatMap_chars_map_char, Numeral.glyphs, List.append_nil, List.append_nil]
  · rw [flatMap_chars_map_char, calloutPair, Numeral.glyphs]
    simp

theorem build_calloutPair :
    build options (calloutPair n digits) =
      if inRange digits then .ok [.callout (reference digits)]
      else .error (.number (.calloutRange (String.ofList digits) n)) := by
  rw [calloutPair, build]
  rfl

end Manuscript.Peg

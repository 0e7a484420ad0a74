import Manuscript.Proofs.Markup.Range
import Manuscript.Proofs.Placeholder.Restoration

namespace Manuscript.Pending

def Keeps (parse : String → Except Fault (List Element)) (before after : UInt32 × Element) : Prop :=
  after.1 = before.1 ∧ (after.2 = before.2 ∨ parsePayload parse before.2 = .ok after.2)

def Reads (parse : String → Except Fault (List Element)) (before after : UInt32 × Element) : Prop :=
  after.1 = before.1 ∧ parsePayload parse before.2 = .ok after.2

section Entries

variable {parse : String → Except Fault (List Element)} {fault : Fault} {reference : UInt32}
  {element : Element} {entries left : List (UInt32 × Element)} {outcome : Except Fault Unit}

theorem Reads.keeps {before after : UInt32 × Element} (h : Reads parse before after) :
    Keeps parse before after :=
  ⟨h.1, .inr h.2⟩

theorem not_keeps_blankLine (h : parsePayload parse element = .error fault) :
    ¬ Keeps parse (reference, element) (reference, .blankLine) := by
  rintro ⟨-, hsame | hread⟩
  · obtain rfl : Element.blankLine = element := hsame
    rw [parsePayload] at h
    cases h
    all_goals exact nofun
  · rw [show parsePayload parse element = .ok .blankLine from hread] at h
    cases h

theorem parseEntries_cases (h : parseEntries parse entries = (outcome, left)) :
    (outcome = .ok () ∧ List.Forall₂ (Reads parse) entries left) ∨
      ∃ fault before read after reference element, outcome = .error fault ∧
        entries = before ++ (reference, element) :: after ∧
        List.Forall₂ (Reads parse) before read ∧ parsePayload parse element = .error fault ∧
        left = read ++ (reference, .blankLine) :: after := by
  induction entries generalizing left with
  | nil =>
    cases h
    exact .inl ⟨rfl, .nil⟩
  | cons entry rest ih =>
    obtain ⟨reference, element⟩ := entry
    rw [parseEntries] at h
    cases hread : parsePayload parse element with
    | error fault =>
      rw [hread] at h
      cases h
      exact .inr ⟨fault, [], [], rest, reference, element, rfl, rfl, .nil, hread, rfl⟩
    | ok parsed =>
      rw [hread] at h
      cases hrest : parseEntries parse rest with
      | mk others left' =>
        rw [hrest] at h
        cases h
        have hfirst : Reads parse (reference, element) (reference, parsed) := ⟨rfl, hread⟩
        obtain ⟨rfl, hreads⟩ | ⟨fault, before, read, after, r, x, rfl, rfl, hreads, hfault, rfl⟩ :=
          ih hrest
        · exact .inl ⟨rfl, .cons hfirst hreads⟩
        · exact .inr ⟨fault, (reference, element) :: before, (reference, parsed) :: read, after, r, x,
            rfl, rfl, .cons hfirst hreads, hfault, rfl⟩

theorem map_fst_of_reads (h : List.Forall₂ (Reads parse) entries left) :
    left.map (·.1) = entries.map (·.1) := by
  induction h with
  | nil => rfl
  | cons hfirst _ ih => rw [List.map_cons, List.map_cons, hfirst.1, ih]

theorem lookup_of_mem {entry : UInt32 × Element} (distinct : (entries.map (·.1)).Nodup)
    (h : entry ∈ entries) : entries.lookup entry.1 = some entry.2 := by
  obtain ⟨before, after, rfl⟩ := List.append_of_mem h
  rw [List.map_append, List.nodup_append] at distinct
  refine List.lookup_eq_some_iff.mpr ⟨before, after, rfl, fun other hother => ?_⟩
  exact bne_iff_ne.mpr
    (distinct.2.2 _ (List.mem_map_of_mem hother) _ List.mem_cons_self).symm

end Entries

theorem runFrom_restore_entry {pending : Pending} {entry : UInt32 × Element}
    (distinct : pending.keys.Nodup) (h : entry ∈ pending.entries) :
    runFrom pending (restore [.placeholder entry.1]) =
      (.ok [entry.2], pending.without [entry.1]) := by
  have hreferences : references [.placeholder entry.1] = [entry.1] := by
    rw [references, gather_cons, gather_nil, List.append_nil]
    rfl
  have hback : putBack pending.original [.placeholder entry.1] = [entry.2] := by
    have horiginal : pending.original entry.1 = entry.2 := by
      rw [original, lookup_of_mem distinct h, Option.getD_some]
    rw [putBack, substituted_eq, List.map_singleton, ← horiginal]
    rfl
  have hknown : entry.1 ∈ pending.keys := List.mem_map_of_mem h
  rw [runFrom_restore (by rw [hreferences]; exact List.nodup_singleton _)
    (by rw [hreferences]; exact List.forall_mem_singleton.mpr hknown), hreferences, hback]

theorem runFrom_parsePayloads (pending : Pending) (parse : String → Except Fault (List Element)) :
    runFrom pending (parsePayloads parse) =
      ((parseEntries parse pending.entries).1,
        { pending with entries := (parseEntries parse pending.entries).2 }) := rfl

variable {pending left : Pending} {outcome : Except Fault Unit}

/-- Reading the quotes again keeps all that is set aside exactly if it succeeds. If it fails, the quotes before
the first that cannot be read are read again, what comes after it is as it was, and a blank line
stands in its own place, so that it is a blank line that is put back for it. -/
theorem parsePayloads_keeps_iff (grammar : Grammar) (rule : Rule) (options : Options)
    (h : runFrom pending (parsePayloads (grammar rule options)) = (outcome, left)) :
    left.last = pending.last ∧ left.keys = pending.keys ∧
      (List.Forall₂ (Keeps (grammar rule options)) pending.entries left.entries ↔
        outcome = .ok ()) ∧
      ∀ fault, outcome = .error fault → ∃ before read after reference element,
        pending.entries = before ++ (reference, element) :: after ∧
        List.Forall₂ (Reads (grammar rule options)) before read ∧
        parsePayload (grammar rule options) element = .error fault ∧
        left.entries = read ++ (reference, .blankLine) :: after ∧
        (pending.keys.Nodup → ∀ entry ∈ left.entries,
          runFrom left (restore [.placeholder entry.1]) =
            (.ok [entry.2], left.without [entry.1])) := by
  obtain ⟨hlast, hentries⟩ : left.last = pending.last ∧
      parseEntries (grammar rule options) pending.entries = (outcome, left.entries) := by
    rw [runFrom_parsePayloads] at h
    cases h
    exact ⟨rfl, rfl⟩
  obtain ⟨rfl, hreads⟩ | ⟨fault, before, read, after, reference, element, rfl, hpending, hreads,
    hfault, hleft⟩ := parseEntries_cases hentries
  · refine ⟨hlast, map_fst_of_reads hreads, iff_of_true (hreads.imp fun _ _ => Reads.keeps) rfl, ?_⟩
    intro fault herror
    cases herror
  · have hkeys : left.keys = pending.keys := by
      rw [keys, keys, hleft, hpending, List.map_append, List.map_append, map_fst_of_reads hreads,
        List.map_cons, List.map_cons]
    refine ⟨hlast, hkeys, iff_of_false (fun hkeeps => ?_) (by simp),
      fun _ hsame => ?_⟩
    · rw [hpending, hleft] at hkeeps
      have hrest := List.forall₂_drop_append _ _ _ hkeeps
      rw [List.drop_left' hreads.length_eq] at hrest
      cases hrest with
      | cons hfirst _ => exact not_keeps_blankLine hfault hfirst
    · cases hsame
      exact ⟨before, read, after, reference, element, hpending, hreads, hfault, hleft,
        fun distinct entry => runFrom_restore_entry (hkeys ▸ distinct)⟩

section OutOfRange

def calloutFault : Fault := .of (.calloutRange "4294967296" 0)

theorem parse_outOfRange :
    Fragment.parse .callouts ⟨none⟩ "<4294967296>" = .error calloutFault := by
  have hmark : Construct.calloutNumber.run (Glyph.spell "<4294967296>") =
      some ("4294967296".toList, []) :=
    Construct.run_calloutNumber_eq_some_iff.mpr ⟨rfl, by decide, by decide, .finish rfl⟩
  have hspell : Glyph.spell "<4294967296>" = .char '<' :: Glyph.spell "4294967296>" := rfl
  have hrange : Fragment.outOfRange? .callouts 0 (Glyph.spell "<4294967296>") =
      some (.calloutRange "4294967296" 0) := by
    rw [hspell] at hmark ⊢
    exact (Fragment.outOfRange?.eq_3 _ _ _ _ _ hmark).trans (if_neg (by decide))
  unfold Fragment.parse
  dsimp only
  rw [Glyph.scan_of_clean (by decide), hrange]
  rfl

theorem parsePayload_outOfRange :
    parsePayload (Fragment.parse .callouts ⟨none⟩) (.quoted .bold ∅ [.text "<4294967296>"]) =
      .error calloutFault := by
  rw [parsePayload, parseFragments, parse_outOfRange]
  rfl

def outOfRange : Pending :=
  ⟨3, [(1, .lineBreak), (2, .quoted .bold ∅ [.text "<4294967296>"]),
    (3, .quoted .italic ∅ [.text "<1>"])]⟩

def blankened : Pending :=
  ⟨3, [(1, .lineBreak), (2, .blankLine), (3, .quoted .italic ∅ [.text "<1>"])]⟩

theorem runFrom_parsePayloads_outOfRange :
    runFrom outOfRange (parsePayloads (Fragment.parse .callouts ⟨none⟩)) =
      (.error calloutFault, blankened) := by
  have hbreak : parsePayload (Fragment.parse .callouts ⟨none⟩) .lineBreak = .ok .lineBreak := by
    rw [parsePayload]
    · rfl
    all_goals exact nofun
  rw [runFrom_parsePayloads, outOfRange, parseEntries, hbreak, parseEntries, parsePayload_outOfRange]
  rfl

theorem parsePayloads_keeps_iff_outOfRange :
    runFrom outOfRange (parsePayloads (Fragment.parse .callouts ⟨none⟩)) =
        (.error calloutFault, blankened) ∧
      blankened.keys = outOfRange.keys ∧
      ¬ List.Forall₂ (Keeps (Fragment.parse .callouts ⟨none⟩)) outOfRange.entries
        blankened.entries := by
  obtain ⟨-, hkeys, hkeeps, -⟩ :=
    parsePayloads_keeps_iff Fragment.parse .callouts ⟨none⟩ runFrom_parsePayloads_outOfRange
  exact ⟨runFrom_parsePayloads_outOfRange, hkeys, fun h => nomatch hkeeps.mp h⟩

theorem blankLine_restored :
    runFrom outOfRange (parsePayloads (Fragment.parse .callouts ⟨none⟩)) =
        (.error calloutFault, blankened) ∧
      (2, .quoted .bold ∅ [.text "<4294967296>"]) ∈ outOfRange.entries ∧
      (∀ entry ∈ blankened.entries, ¬ Keeps (Fragment.parse .callouts ⟨none⟩)
        (2, .quoted .bold ∅ [.text "<4294967296>"]) entry) ∧
      runFrom blankened (restore [.placeholder 2]) =
        (.ok [.blankLine], ⟨3, [(1, .lineBreak), (3, .quoted .italic ∅ [.text "<1>"])]⟩) := by
  refine ⟨runFrom_parsePayloads_outOfRange, List.mem_cons_of_mem _ List.mem_cons_self, ?_, ?_⟩
  · simp only [blankened, List.forall_mem_cons]
    refine ⟨?_, not_keeps_blankLine parsePayload_outOfRange, ?_, nofun⟩
    · exact fun h => absurd h.1 (by decide)
    · exact fun h => absurd h.1 (by decide)
  · have hblank : (2, .blankLine) ∈ blankened.entries := List.mem_cons_of_mem _ List.mem_cons_self
    exact runFrom_restore_entry (by decide) hblank

end OutOfRange

end Manuscript.Pending

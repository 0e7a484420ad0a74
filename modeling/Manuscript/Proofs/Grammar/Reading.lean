import Manuscript.Proofs.Grammar.Builder
import Manuscript.Proofs.Markup.Mapping
import Manuscript.Proofs.Placeholder.Conservation

namespace Manuscript

open Glyph Reader

namespace Glyph

def Scanned (glyphs : List Glyph) : Prop :=
  scan (glyphs.flatMap chars) = glyphs

theorem scanned_scan (cs : List Char) : Scanned (scan cs) := by
  rw [Scanned, flatMap_chars_scan]

namespace Scanned

variable {glyphs rest : List Glyph} {digits : List Char} {c : Char}

theorem of_char (h : Scanned (.char c :: rest)) :
    Scanned rest ∧ (c = reservedChar → tokenRest? (rest.flatMap chars) = none) := by
  change scan (c :: rest.flatMap chars) = _ at h
  rw [scan] at h
  split at h
  · next hc =>
    split at h
    · cases h
    · next hnone => exact ⟨(List.cons.inj h).2, fun _ => hnone⟩
  · next hc => exact ⟨(List.cons.inj h).2, fun he => absurd he hc⟩

theorem of_token (h : Scanned (.token digits :: rest)) :
    Scanned rest ∧ digits ≠ [] ∧ ∀ d ∈ digits, d.isDigit := by
  have htext : (Glyph.token digits :: rest).flatMap chars =
      reservedChar :: (digits ++ reservedChar :: rest.flatMap chars) := by
    simp [chars]
  rw [Scanned, htext, scan, if_pos rfl] at h
  split at h
  · next ds after hrest =>
    obtain ⟨hds, hscan⟩ := List.cons.inj h
    obtain rfl := Glyph.token.inj hds
    have happend := append_of_tokenRest? hrest
    obtain rfl : rest.flatMap chars = after := (List.cons.inj (List.append_cancel_left happend)).2
    exact ⟨hscan, digits_of_tokenRest? hrest⟩
  · cases h

theorem tail {g : Glyph} (h : Scanned (g :: rest)) : Scanned rest := by
  cases g with
  | char c => exact h.of_char.1
  | token digits => exact h.of_token.1

theorem suffix (h : Scanned glyphs) (hsuffix : rest <:+ glyphs) : Scanned rest := by
  obtain ⟨before, rfl⟩ := hsuffix
  induction before with
  | nil => exact h
  | cons g before ih => exact ih h.tail

end Scanned

theorem startsWith_iff {cs : List Char} (h : reservedChar ∉ cs) {glyphs : List Glyph} :
    startsWith cs glyphs = true ↔ cs <+: glyphs.flatMap chars := by
  fun_induction startsWith cs glyphs with
  | case1 => simp
  | case2 c cs d rest ih =>
    obtain ⟨-, hcs⟩ := List.ne_and_not_mem_of_not_mem_cons h
    simp [chars, List.cons_prefix_cons, ih hcs]
  | case3 c cs glyphs hno =>
    obtain ⟨hc, -⟩ := List.ne_and_not_mem_of_not_mem_cons h
    refine iff_of_false Bool.false_ne_true fun hstarts => ?_
    cases glyphs with
    | nil => simp at hstarts
    | cons g rest =>
      cases g with
      | char d => exact hno d rest rfl
      | token digits =>
        rw [List.flatMap_cons, chars, List.cons_append, List.cons_append,
          List.cons_prefix_cons] at hstarts
        exact hc hstarts.1.symm

end Glyph

namespace Reader

theorem literal_append (s t : String) :
    literal (s ++ t) = (do literal s; literal t) := by
  refine ext_run fun glyphs => ?_
  rw [run_bind]
  change (if _ then _ else _) = Option.bind (if _ then _ else _) _
  rw [String.toList_append, startsWith_append, List.length_append, ← List.drop_drop]
  cases startsWith s.toList glyphs <;> rfl

end Reader

namespace Peg

variable {α β : Type} {n : Nat} {e f : Expression} {r s : Reader α}
  {P Q : List Glyph → List Tree → α → Prop}

def size (glyphs : List Glyph) : Nat := Text.byteCount (glyphs.flatMap chars)

theorem size_append (t u : List Glyph) : size (t ++ u) = size t + size u := by
  rw [size, List.flatMap_append, Text.byteCount_append]
  rfl

def cursor (n : Nat) (glyphs : List Glyph) : Cursor := ⟨n, glyphs.flatMap chars⟩

def ReadsAt (n : Nat) (e : Expression) (r : Reader α) (Q : List Glyph → List Tree → α → Prop)
    (glyphs : List Glyph) : Prop :=
  (∀ a rest, r.run glyphs = some (a, rest) → ∃ taken ps, glyphs = taken ++ rest ∧
    Run grammar e (cursor n glyphs) (some (ps, cursor (n + size taken) rest)) ∧ Q taken ps a) ∧
  (r.run glyphs = none → Run grammar e (cursor n glyphs) none)

def Reads (n : Nat) (e : Expression) (r : Reader α) (Q : List Glyph → List Tree → α → Prop) : Prop :=
  ∀ glyphs, Scanned glyphs → ReadsAt n e r Q glyphs

def Tests (e : Expression) (p : List Glyph → Bool) : Prop :=
  ∀ n glyphs, Scanned glyphs →
    (p glyphs = true → ∃ found, Run grammar e (cursor n glyphs) (some found)) ∧
    (p glyphs = false → Run grammar e (cursor n glyphs) none)

structure Steps (e : Expression) (stop : List Glyph → Bool) : Prop where
  atEnd : ∀ n, Run grammar e (cursor n []) none
  atStop : ∀ n g rest, Scanned (g :: rest) → stop (g :: rest) = true →
    Run grammar e (cursor n (g :: rest)) none
  char : ∀ n g rest, Scanned (g :: rest) → stop (g :: rest) = false →
    ∃ c, g = .char c ∧
      Run grammar e (cursor n (g :: rest)) (some ([], cursor (n + c.utf8Size) rest))

namespace ReadsAt

variable {glyphs : List Glyph}

theorem mono (h : ReadsAt n e r P glyphs) (hPQ : ∀ t ps a, P t ps a → Q t ps a) :
    ReadsAt n e r Q glyphs := by
  refine ⟨fun a rest hr => ?_, h.2⟩
  obtain ⟨t, ps, he, hrun, hp⟩ := h.1 a rest hr
  exact ⟨t, ps, he, hrun, hPQ t ps a hp⟩

theorem map {g : α → β} {R : List Glyph → List Tree → β → Prop}
    (h : ReadsAt n e r (fun t ps a => R t ps (g a)) glyphs) : ReadsAt n e (g <$> r) R glyphs := by
  obtain ⟨hsome, hnone⟩ := h
  rw [ReadsAt, run_map]
  refine ⟨fun b rest hb => ?_, fun hb => hnone (Option.map_eq_none_iff.mp hb)⟩
  obtain ⟨⟨a, rest'⟩, ha, he⟩ := Option.map_eq_some_iff.mp hb
  cases he
  exact hsome a _ ha

theorem bind {f' : α → Reader β} {R : List Glyph → List Tree → β → Prop}
    (h : ReadsAt n e r P glyphs)
    (hf : ∀ t rest ps a, glyphs = t ++ rest → P t ps a →
      ReadsAt (n + size t) f (f' a) (fun u qs b => R (t ++ u) (ps ++ qs) b) rest) :
    ReadsAt n (.seq e f) (r >>= f') R glyphs := by
  obtain ⟨hsome, hnone⟩ := h
  rw [ReadsAt, run_bind]
  cases hr : r.run glyphs with
  | none => exact ⟨fun _ _ hb => (by cases hb), fun _ => .seqFails (hnone hr)⟩
  | some found =>
    obtain ⟨a, middle⟩ := found
    obtain ⟨t, ps, rfl, hrun, hp⟩ := hsome a middle hr
    obtain ⟨hsome', hnone'⟩ := hf t middle ps a rfl hp
    refine ⟨fun b rest hb => ?_, fun hb => .seqFailsAfter hrun (hnone' hb)⟩
    obtain ⟨u, qs, rfl, hrun', hR⟩ := hsome' b rest hb
    refine ⟨t ++ u, ps ++ qs, (List.append_assoc ..).symm, ?_, hR⟩
    rw [size_append, ← Nat.add_assoc]
    exact .seq hrun hrun'

theorem fail : ReadsAt n .fail (Reader.fail : Reader α) Q glyphs :=
  ⟨fun _ _ hr => (by cases hr), fun _ => .charFails fun _ _ => rfl⟩

theorem orElse (hr : ReadsAt n e r Q glyphs) (hs : ReadsAt n f s Q glyphs) :
    ReadsAt n (.choice e f) (Reader.orElse r s) Q glyphs := by
  obtain ⟨hsome, hnone⟩ := hr
  obtain ⟨hsome', hnone'⟩ := hs
  rw [ReadsAt, run_orElse]
  refine ⟨fun a rest h => ?_, fun h => ?_⟩
  · rcases Option.or_eq_some_iff.mp h with h | ⟨hno, h⟩
    · obtain ⟨t, ps, he, hrun, hq⟩ := hsome a rest h
      exact ⟨t, ps, he, .first hrun, hq⟩
    · obtain ⟨t, ps, he, hrun, hq⟩ := hsome' a rest h
      exact ⟨t, ps, he, .second (hnone hno) hrun, hq⟩
  · obtain ⟨hno, hno'⟩ := Option.or_eq_none_iff.mp h
    exact .second (hnone hno) (hnone' hno')

theorem seq_empty (h : ReadsAt n e r Q glyphs) : ReadsAt n (.seq e .empty) r Q glyphs := by
  obtain ⟨hsome, hnone⟩ := h
  refine ⟨fun a rest hr => ?_, fun hr => .seqFails (hnone hr)⟩
  obtain ⟨t, ps, he, hrun, hq⟩ := hsome a rest hr
  have hseq := Run.seq hrun (.empty _)
  rw [List.append_nil] at hseq
  exact ⟨t, ps, he, hseq, hq⟩

theorem choice_fail (h : ReadsAt n e r Q glyphs) : ReadsAt n (.choice e .fail) r Q glyphs := by
  obtain ⟨hsome, hnone⟩ := h
  refine ⟨fun a rest hr => ?_, fun hr => .second (hnone hr) (.charFails fun _ _ => rfl)⟩
  obtain ⟨t, ps, he, hrun, hq⟩ := hsome a rest hr
  exact ⟨t, ps, he, .first hrun, hq⟩

theorem firstOf {es : List Expression} {rs : List (Reader α)}
    (h : List.Forall₂ (fun e r => ReadsAt n e r Q glyphs) es rs) :
    ReadsAt n (.choose es) (Reader.firstOf rs) Q glyphs := by
  induction h with
  | nil => exact fail
  | cons hfirst _ ih => exact hfirst.orElse ih

theorem choose_append {es fs : List Expression} (hr : ReadsAt n (.choose es) r Q glyphs)
    (hs : ReadsAt n (.choose fs) s Q glyphs) :
    ReadsAt n (.choose (es ++ fs)) (Reader.orElse r s) Q glyphs := by
  obtain ⟨hsome, hnone⟩ := hr.orElse hs
  refine ⟨fun a rest h => ?_, fun h => Run.choose_append (hnone h)⟩
  obtain ⟨t, ps, he, hrun, hq⟩ := hsome a rest h
  exact ⟨t, ps, he, .choose_append hrun, hq⟩

theorem call {name : Name} (h : ReadsAt n (grammar name).body r Q glyphs) :
    ReadsAt n (.call name) r (fun t ps a =>
      ∃ inner, ps = [.node name n (t.flatMap chars) ((grammar name).kept inner)] ∧ Q t inner a)
      glyphs := by
  obtain ⟨hsome, hnone⟩ := h
  refine ⟨fun a rest hr => ?_, fun hr => .callFails (hnone hr)⟩
  obtain ⟨t, inner, rfl, hrun, hq⟩ := hsome a rest hr
  exact ⟨t, _, rfl, .call hrun List.flatMap_append, inner, rfl, hq⟩

theorem of_definition {name : Name} {definition : Definition Name}
    (hname : grammar name = definition)
    (h : ReadsAt n definition.body r
      (fun t inner a => Q t [.node name n (t.flatMap chars) (definition.kept inner)] a) glyphs) :
    ReadsAt n (.call name) r Q glyphs := by
  subst hname
  refine (call h).mono fun t ps a ⟨inner, hps, hq⟩ => ?_
  rw [hps]
  exact hq

theorem compound {name : Name} {body : Expression} (hname : grammar name = .compound body)
    (h : ReadsAt n body r (fun t inner a => Q t [.node name n (t.flatMap chars) inner] a) glyphs) :
    ReadsAt n (.call name) r Q glyphs :=
  of_definition hname h

theorem atomic {name : Name} {body : Expression} (hname : grammar name = .atomic body)
    (h : ReadsAt n body r (fun t _ a => Q t [.node name n (t.flatMap chars) []] a) glyphs) :
    ReadsAt n (.call name) r Q glyphs :=
  of_definition hname h

end ReadsAt

namespace Reads

theorem mono (h : Reads n e r P) (hPQ : ∀ t ps a, P t ps a → Q t ps a) : Reads n e r Q :=
  fun glyphs hg => (h glyphs hg).mono hPQ

theorem yielding {R : α → Prop} (h : Reads n e r P) (hr : r.Yields fun _ a => R a) :
    Reads n e r fun t ps a => P t ps a ∧ R a := by
  intro glyphs hg
  refine ⟨fun a rest ha => ?_, (h glyphs hg).2⟩
  obtain ⟨t, ps, he, hrun, hp⟩ := (h glyphs hg).1 a rest ha
  obtain ⟨_, _, hR⟩ := hr glyphs a rest ha
  exact ⟨t, ps, he, hrun, hp, hR⟩

theorem map {g : α → β} {R : List Glyph → List Tree → β → Prop}
    (h : Reads n e r fun t ps a => R t ps (g a)) : Reads n e (g <$> r) R :=
  fun glyphs hg => (h glyphs hg).map

theorem literal {text : String} (h : reservedChar ∉ text.toList) :
    Reads n (.literal text) (Reader.literal text) fun t ps _ => t = spell text ∧ ps = [] := by
  intro glyphs _
  rw [Reader.literal]
  refine ⟨fun a rest hr => ?_, fun hr => ?_⟩
  · dsimp only at hr
    split at hr
    · next hstart =>
      obtain ⟨-, rfl⟩ := Prod.mk.inj (Option.some.inj hr)
      refine ⟨spell text, [], spell_of_startsWith hstart, ?_, rfl, rfl⟩
      rw [spell_of_startsWith hstart, cursor, List.flatMap_append, flatMap_chars_map_char, size,
        flatMap_chars_spell, ← spell_of_startsWith hstart]
      exact .literal
    · cases hr
  · dsimp only at hr
    split at hr
    · cases hr
    · next hstart => exact .literalFails fun hstarts => hstart ((startsWith_iff h).mpr hstarts)

theorem literal_return {text : String} {a : α} (h : reservedChar ∉ text.toList)
    (hq : Q (spell text) [] a) :
    Reads n (.literal text) (Reader.literal text >>= fun _ => Pure.pure a) Q :=
  map (g := fun _ => a) ((literal h).mono fun _ _ _ ⟨ht, hps⟩ => ht ▸ hps ▸ hq)

theorem pure {a : α} (h : Q [] [] a) : Reads n .empty (Pure.pure a) Q := by
  intro glyphs _
  refine ⟨fun b rest hr => ?_, fun hr => by cases hr⟩
  obtain ⟨rfl, rfl⟩ := Prod.mk.inj (Option.some.inj hr)
  exact ⟨[], [], rfl, .literal, h⟩

theorem bind {f' : α → Reader β} {R : List Glyph → List Tree → β → Prop} (h : Reads n e r P)
    (hf : ∀ t ps a, P t ps a →
      Reads (n + size t) f (f' a) fun u qs b => R (t ++ u) (ps ++ qs) b) :
    Reads n (.seq e f) (r >>= f') R :=
  fun glyphs hg => (h glyphs hg).bind fun t rest ps a he hp =>
    hf t ps a hp rest (hg.suffix ⟨t, he.symm⟩)

theorem fail : Reads n .fail (Reader.fail : Reader α) Q :=
  fun _ _ => .fail

theorem orElse (hr : Reads n e r Q) (hs : Reads n f s Q) :
    Reads n (.choice e f) (Reader.orElse r s) Q :=
  fun glyphs hg => (hr glyphs hg).orElse (hs glyphs hg)

theorem seq_empty (h : Reads n e r Q) : Reads n (.seq e .empty) r Q :=
  fun glyphs hg => (h glyphs hg).seq_empty

theorem choice_fail (h : Reads n e r Q) : Reads n (.choice e .fail) r Q :=
  fun glyphs hg => (h glyphs hg).choice_fail

theorem firstOf {es : List Expression} {rs : List (Reader α)}
    (h : List.Forall₂ (fun e r => Reads n e r Q) es rs) :
    Reads n (.choose es) (Reader.firstOf rs) Q :=
  fun glyphs hg => .firstOf (h.imp fun _ _ hr => hr glyphs hg)

theorem choose_append {es fs : List Expression} (hr : Reads n (.choose es) r Q)
    (hs : Reads n (.choose fs) s Q) : Reads n (.choose (es ++ fs)) (Reader.orElse r s) Q :=
  fun glyphs hg => (hr glyphs hg).choose_append (hs glyphs hg)

theorem optional {R : List Glyph → List Tree → Option α → Prop}
    (h : Reads n e r fun t ps a => R t ps (some a)) (hnone : R [] [] none) :
    Reads n (.optional e) (Reader.optional r) R :=
  h.map.orElse (pure hnone)

theorem compound {name : Name} {body : Expression} (hname : grammar name = .compound body)
    (h : Reads n body r fun t inner a => Q t [.node name n (t.flatMap chars) inner] a) :
    Reads n (.call name) r Q :=
  fun glyphs hg => .compound hname (h glyphs hg)

theorem atomic {name : Name} {body : Expression} (hname : grammar name = .atomic body)
    (h : Reads n body r fun t _ a => Q t [.node name n (t.flatMap chars) []] a) :
    Reads n (.call name) r Q :=
  fun glyphs hg => .atomic hname (h glyphs hg)

theorem tests (h : ∀ n, Reads n e r Q) : Tests e fun glyphs => (r.run glyphs).isSome := by
  intro n glyphs hg
  obtain ⟨hsome, hnone⟩ := h n glyphs hg
  refine ⟨fun hr => ?_, fun hr => hnone (Option.not_isSome_iff_eq_none.mp (by simp [hr]))⟩
  obtain ⟨⟨a, rest⟩, ha⟩ := Option.isSome_iff_exists.mp hr
  obtain ⟨t, ps, -, hrun, -⟩ := hsome a rest ha
  exact ⟨_, hrun⟩

theorem notAhead {p : List Glyph → Bool} (h : Tests e p) :
    Reads n (.no e) (Reader.ahead fun glyphs => !p glyphs) fun t ps _ => t = [] ∧ ps = [] := by
  intro glyphs hg
  obtain ⟨htrue, hfalse⟩ := h n glyphs hg
  rw [Reader.ahead]
  cases hp : p glyphs with
  | true =>
    obtain ⟨found, hrun⟩ := htrue hp
    exact ⟨fun a rest hr => (by simp [hp] at hr), fun _ => .noFails hrun⟩
  | false =>
    refine ⟨fun a rest hr => ?_, fun hr => (by simp [hp] at hr)⟩
    obtain ⟨-, rfl⟩ : () = a ∧ glyphs = rest := by simpa [hp] using hr
    exact ⟨[], [], rfl, .no (hfalse hp), rfl, rfl⟩

end Reads

namespace Tests

variable {p q : List Glyph → Bool}

theorem congr (h : Tests e p) (hpq : ∀ glyphs, p glyphs = q glyphs) : Tests e q :=
  funext hpq ▸ h

theorem no (h : Tests e p) : Tests (.no e) fun glyphs => !p glyphs := by
  intro n glyphs hg
  obtain ⟨htrue, hfalse⟩ := h n glyphs hg
  refine ⟨fun hp => ⟨_, .no (hfalse (by simpa using hp))⟩, fun hp => ?_⟩
  obtain ⟨found, hrun⟩ := htrue (by simpa using hp)
  exact .noFails hrun

theorem literal {text : String} (h : reservedChar ∉ text.toList) :
    Tests (.literal text) (startsWith text.toList) := by
  intro n glyphs hg
  refine ⟨fun hp => ?_, fun hp => .literalFails fun hstarts => ?_⟩
  · obtain ⟨rest, hrest⟩ := (startsWith_iff h).mp hp
    rw [cursor, ← hrest]
    exact ⟨_, .literal⟩
  · rw [(startsWith_iff h).mpr hstarts] at hp
    cases hp

theorem char {p : Char → Bool} (h : p reservedChar = false) : Tests (.char p) (headIs p) := by
  intro n glyphs hg
  cases glyphs with
  | nil => exact ⟨fun hp => (by cases hp), fun _ => .charFails fun c hc => (by cases hc)⟩
  | cons g rest =>
    cases g with
    | char c =>
      exact ⟨fun hp => ⟨_, .char hp⟩, fun hp => .charFails fun d hd => Option.some.inj hd ▸ hp⟩
    | token digits =>
      exact ⟨fun hp => (by cases hp), fun _ => .charFails fun d hd => Option.some.inj hd ▸ h⟩

theorem fail : Tests .fail fun _ => false :=
  fun _ _ _ => ⟨fun hp => (by cases hp), fun _ => .charFails fun _ _ => rfl⟩

theorem choice (he : Tests e p) (hf : Tests f q) :
    Tests (.choice e f) fun glyphs => p glyphs || q glyphs := by
  intro n glyphs hg
  obtain ⟨htrue, hfalse⟩ := he n glyphs hg
  obtain ⟨htrue', hfalse'⟩ := hf n glyphs hg
  cases hp : p glyphs with
  | true =>
    obtain ⟨found, hrun⟩ := htrue hp
    exact ⟨fun _ => ⟨found, .first hrun⟩, fun hq => (by simp [hp] at hq)⟩
  | false =>
    refine ⟨fun hq => ?_, fun hq => .second (hfalse hp) (hfalse' (by simpa [hp] using hq))⟩
    obtain ⟨found, hrun⟩ := htrue' (by simpa [hp] using hq)
    exact ⟨found, .second (hfalse hp) hrun⟩

theorem finish : Tests .finish List.isEmpty := by
  intro n glyphs _
  cases glyphs with
  | nil => exact ⟨fun _ => ⟨_, .finish⟩, fun hp => (by cases hp)⟩
  | cons g rest =>
    refine ⟨fun hp => (by cases hp), fun _ => .finishFails ?_⟩
    cases g <;> simp [chars]

theorem seq_empty (h : Tests e p) : Tests (.seq e .empty) p := by
  intro n glyphs hg
  obtain ⟨htrue, hfalse⟩ := h n glyphs hg
  refine ⟨fun hp => ?_, fun hp => .seqFails (hfalse hp)⟩
  obtain ⟨_, hrun⟩ := htrue hp
  exact ⟨_, .seq hrun (.empty _)⟩

theorem after (he : ∀ n, Reads n e r Q) (hf : Tests f q) :
    Tests (.seq e f) fun glyphs => (r.run glyphs).any fun found => q found.2 := by
  intro n glyphs hg
  obtain ⟨hsome, hnone⟩ := he n glyphs hg
  change ((r.run glyphs).any (fun found => q found.2) = true → _) ∧
    ((r.run glyphs).any (fun found => q found.2) = false → _)
  cases hr : r.run glyphs with
  | none => exact ⟨fun h => (by cases h), fun _ => .seqFails (hnone hr)⟩
  | some found =>
    obtain ⟨a, rest⟩ := found
    obtain ⟨t, ps, rfl, hrun, -⟩ := hsome a rest hr
    obtain ⟨htrue, hfalse⟩ := hf (n + size t) rest (hg.suffix (List.suffix_append _ _))
    refine ⟨fun h => ?_, fun h => .seqFailsAfter hrun (hfalse h)⟩
    obtain ⟨_, hrun'⟩ := htrue h
    exact ⟨_, .seq hrun hrun'⟩

end Tests

theorem Reads.ahead {p : List Glyph → Bool} (h : Tests e p) :
    Reads n (.ahead e) (Reader.ahead p) fun t ps _ => t = [] ∧ ps = [] := by
  have hp : p = fun glyphs => !!p glyphs := funext fun _ => (Bool.not_not _).symm
  rw [hp]
  exact .notAhead h.no

namespace Steps

variable {stop p : List Glyph → Bool}

theorem ofChar {p : Char → Bool} (h : p reservedChar = false) :
    Steps (.char p) fun glyphs => !headIs p glyphs where
  atEnd _ := .charFails fun _ hc => (by cases hc)
  atStop n g rest hg hstop := (Tests.char h n _ hg).2 (by simpa using hstop)
  char n g rest _ hstop := by
    cases g with
    | char c => exact ⟨c, rfl, .char (by simpa [headIs] using hstop)⟩
    | token digits => cases hstop

theorem congr {halt : List Glyph → Bool} (h : Steps e stop) (hstop : ∀ glyphs, stop glyphs = halt glyphs) :
    Steps e halt :=
  funext hstop ▸ h

theorem ofLiteral {text : String} (c : Char) (htext : text.toList = [c]) (h : c ≠ reservedChar) :
    Steps (.literal text) fun glyphs => !headIs (· == c) glyphs where
  atEnd _ := .literalFails (by simp [htext])
  atStop n g rest hg hstop := by
    refine (Tests.literal (by simpa [htext] using h.symm) n _ hg).2 ?_
    cases g with
    | char d => simpa [headIs, startsWith, htext, BEq.comm] using hstop
    | token digits => simp [startsWith, htext]
  char n g rest _ hstop := by
    cases g with
    | char d =>
      obtain rfl : d = c := by simpa [headIs] using hstop
      refine ⟨d, rfl, ?_⟩
      have hrun : Run grammar (.literal text) ⟨n, text.toList ++ rest.flatMap chars⟩
          (some ([], ⟨n + Text.byteCount text.toList, rest.flatMap chars⟩)) := .literal
      simpa [htext, Text.byteCount, cursor, chars] using hrun
    | token digits => cases hstop

theorem choice {halt : List Glyph → Bool} (he : Steps e stop) (hf : Steps f halt) :
    Steps (.choice e f) fun glyphs => stop glyphs && halt glyphs where
  atEnd n := .second (he.atEnd n) (hf.atEnd n)
  atStop n g rest hg hstop := by
    obtain ⟨hstop, hhalt⟩ := Bool.and_eq_true_iff.mp hstop
    exact .second (he.atStop n g rest hg hstop) (hf.atStop n g rest hg hhalt)
  char n g rest hg hgo := by
    cases hstop : stop (g :: rest) with
    | false =>
      obtain ⟨c, rfl, hrun⟩ := he.char n g rest hg hstop
      exact ⟨c, rfl, .first hrun⟩
    | true =>
      rw [hstop, Bool.true_and] at hgo
      obtain ⟨c, rfl, hrun⟩ := hf.char n g rest hg hgo
      exact ⟨c, rfl, .second (he.atStop n _ rest hg hstop) hrun⟩

theorem choose {es : List Expression} {ps : List (Char → Bool)}
    (h : List.Forall₂ (fun e p => Steps e fun glyphs => !headIs p glyphs) es ps) :
    Steps (.choose es) fun glyphs => !headIs (fun c => ps.any (· c)) glyphs := by
  induction h with
  | nil => exact (ofChar rfl).congr fun _ => rfl
  | @cons e p es ps he _ ih =>
    refine (he.choice ih).congr fun glyphs => ?_
    rw [← Bool.not_or, headIs_or]
    rfl

theorem except (h : Tests e p) (htoken : ∀ digits rest, p (.token digits :: rest) = true) :
    Steps e.except p where
  atEnd n := by
    cases hp : p [] with
    | true =>
      obtain ⟨_, hrun⟩ := (h n [] (by simp [Scanned, scan])).1 hp
      exact .seqFails (.noFails hrun)
    | false =>
      refine .seqFailsAfter (.no ((h n [] (by simp [Scanned, scan])).2 hp)) (.charFails ?_)
      exact fun _ hc => (by cases hc)
  atStop n g rest hg hstop := by
    obtain ⟨_, hrun⟩ := (h n _ hg).1 hstop
    exact .seqFails (.noFails hrun)
  char n g rest hg hstop := by
    cases g with
    | char c => exact ⟨c, rfl, .seq (.no ((h n _ hg).2 hstop)) (.char rfl)⟩
    | token digits => rw [htoken] at hstop; cases hstop

theorem star (h : Steps e stop) (n : Nat) :
    Reads n (.star e) (upTo stop) fun t ps a => t = a ∧ ps = [] ∧ numerals t = [] := by
  intro glyphs hg
  refine ⟨fun a rest hr => ?_, fun hr => by cases hr⟩
  obtain ⟨rfl, rfl⟩ := Prod.mk.inj (Option.some.inj hr)
  clear hr
  suffices Run grammar (.star e) (cursor n glyphs)
      (some ([], cursor (n + size (breakAt stop glyphs).1) (breakAt stop glyphs).2)) ∧
      numerals (breakAt stop glyphs).1 = [] from
    ⟨_, [], (breakAt_append ..).symm, this.1, rfl, rfl, this.2⟩
  induction glyphs generalizing n with
  | nil => exact ⟨.stop (h.atEnd n), rfl⟩
  | cons g rest ih =>
    rw [breakAt]
    cases hstop : stop (g :: rest) with
    | true => exact ⟨.stop (h.atStop n g rest hg hstop), rfl⟩
    | false =>
      obtain ⟨c, rfl, hrun⟩ := h.char n g rest hg hstop
      obtain ⟨hrest, hnone⟩ := ih (n + c.utf8Size) hg.tail
      refine ⟨?_, hnone⟩
      have hsize : n + size (.char c :: (breakAt stop rest).1) =
          n + c.utf8Size + size (breakAt stop rest).1 := (Nat.add_assoc ..).symm
      rw [if_neg Bool.false_ne_true, hsize]
      exact .more hrun hrest

theorem plus (h : Steps e stop) (n : Nat) :
    Reads n e.plus (someUpTo stop) fun t ps a => t = a ∧ ps = [] ∧ numerals t = [] ∧ t ≠ [] := by
  intro glyphs hg
  cases glyphs with
  | nil => exact ⟨fun _ _ hr => (by cases hr), fun _ => .seqFails (h.atEnd n)⟩
  | cons g rest =>
    rw [ReadsAt, run_someUpTo]
    cases hstop : stop (g :: rest) with
    | true =>
      rw [breakAt, hstop]
      exact ⟨fun _ _ hr => (by cases hr), fun _ => .seqFails (h.atStop n g rest hg hstop)⟩
    | false =>
      rw [breakAt, hstop]
      refine ⟨fun a left hr => ?_, fun hr => (by cases hr)⟩
      obtain ⟨rfl, rfl⟩ := Prod.mk.inj (Option.some.inj hr)
      obtain ⟨c, rfl, hfirst⟩ := h.char n g rest hg hstop
      obtain ⟨t, ps, he, hstar, rfl, rfl, hnone⟩ :=
        (h.star (n + c.utf8Size) rest hg.tail).1 _ _ rfl
      refine ⟨_, [], congrArg (_ :: ·) he, ?_, rfl, rfl, hnone, List.cons_ne_nil _ _⟩
      have hsize : n + size (.char c :: (breakAt stop rest).1) =
          n + c.utf8Size + size (breakAt stop rest).1 := (Nat.add_assoc ..).symm
      rw [hsize]
      exact .seq hfirst hstar

end Steps

inductive Repeated (P : Nat → List Glyph → List Tree → α → Prop) :
    Nat → List Glyph → List Tree → List α → Prop
  | nil {n : Nat} : Repeated P n [] [] []
  | cons {n : Nat} {t u : List Glyph} {ps qs : List Tree} {a : α} {as : List α} :
      P n t ps a → Repeated P (n + size t) u qs as → Repeated P n (t ++ u) (ps ++ qs) (a :: as)

theorem Reads.many {P : Nat → List Glyph → List Tree → α → Prop} (h : ∀ n, Reads n e r (P n))
    (hne : ∀ n t ps a, P n t ps a → t ≠ []) (n : Nat) :
    Reads n (.star e) (Reader.many r) (Repeated P n) := by
  intro glyphs hg
  refine ⟨fun as rest hr => ?_, fun hr => by cases hr⟩
  obtain ⟨rfl, rfl⟩ := Prod.mk.inj (Option.some.inj hr)
  clear hr
  fun_induction manyFrom r glyphs generalizing n with
  | case1 glyphs ht =>
    refine ⟨[], [], rfl, .stop ((h n glyphs hg).2 ?_), .nil⟩
    refine Option.eq_none_iff_forall_ne_some.mpr ?_
    rintro ⟨a, rest⟩ hr
    obtain ⟨t, ps, rfl, -, hp⟩ := (h n glyphs hg).1 a rest hr
    refine take?_eq_none_iff.mp ht a rest hr ?_
    rw [List.length_append]
    exact Nat.lt_add_of_pos_left (List.length_pos_iff.mpr (hne _ _ _ _ hp))
  | case2 glyphs a rest ht ih =>
    obtain ⟨t, ps, he, hrun, hp⟩ := (h n glyphs hg).1 a rest.left (take?_eq_some_iff.mp ht)
    obtain ⟨u, qs, hrest, hruns, hrepeated⟩ := ih (n + size t) (hg.suffix rest.suffix)
    refine ⟨t ++ u, ps ++ qs, ?_, ?_, .cons hp hrepeated⟩
    · rw [List.append_assoc, ← hrest, ← he]
    · rw [size_append, ← Nat.add_assoc]
      exact .more hrun hruns

end Peg

end Manuscript

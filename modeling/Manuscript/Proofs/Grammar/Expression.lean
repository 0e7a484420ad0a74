import Manuscript.Text.Offset

namespace Manuscript.Peg

structure Cursor where
  offset : Nat
  left : List Char

inductive Expr (N : Type) where
  | char (p : Char → Bool)
  | literal (s : String)
  | start
  | finish
  | seq (e f : Expr N)
  | choice (e f : Expr N)
  | star (e : Expr N)
  | no (e : Expr N)
  | call (name : N)

inductive Pair (N : Type) where
  | node (name : N) (offset : Nat) (text : List Char) (inner : List (Pair N))

inductive Definition (N : Type) where
  | compound (body : Expr N)
  | atomic (body : Expr N)

namespace Definition

variable {N : Type}

def body : Definition N → Expr N
  | compound body => body
  | atomic body => body

def kept : Definition N → List (Pair N) → List (Pair N)
  | compound _, inner => inner
  | atomic _, _ => []

end Definition

namespace Expr

variable {N : Type}

def empty : Expr N := literal ""

def fail : Expr N := char fun _ => false

def any : Expr N := char fun _ => true

def sequence (es : List (Expr N)) : Expr N := es.foldr seq empty

def choose (es : List (Expr N)) : Expr N := es.foldr choice fail

def optional (e : Expr N) : Expr N := choice e empty

def plus (e : Expr N) : Expr N := seq e (star e)

def ahead (e : Expr N) : Expr N := no (no e)

def except (e : Expr N) : Expr N := seq (no e) any

end Expr

section

variable {N : Type} {grammar : N → Definition N}

inductive Run (grammar : N → Definition N) :
    Expr N → Cursor → Option (List (Pair N) × Cursor) → Prop
  | char {p : Char → Bool} {n : Nat} {c : Char} {cs : List Char} : p c →
      Run grammar (.char p) ⟨n, c :: cs⟩ (some ([], ⟨n + c.utf8Size, cs⟩))
  | charFails {p : Char → Bool} {n : Nat} {cs : List Char} : (∀ c ∈ cs.head?, p c = false) →
      Run grammar (.char p) ⟨n, cs⟩ none
  | literal {s : String} {n : Nat} {cs : List Char} :
      Run grammar (.literal s) ⟨n, s.toList ++ cs⟩ (some ([], ⟨n + Text.byteCount s.toList, cs⟩))
  | literalFails {s : String} {n : Nat} {cs : List Char} : ¬ s.toList <+: cs →
      Run grammar (.literal s) ⟨n, cs⟩ none
  | start {cs : List Char} : Run grammar .start ⟨0, cs⟩ (some ([], ⟨0, cs⟩))
  | startFails {n : Nat} {cs : List Char} : n ≠ 0 → Run grammar .start ⟨n, cs⟩ none
  | finish {n : Nat} : Run grammar .finish ⟨n, []⟩ (some ([], ⟨n, []⟩))
  | finishFails {n : Nat} {cs : List Char} : cs ≠ [] → Run grammar .finish ⟨n, cs⟩ none
  | seq {e f : Expr N} {a b c : Cursor} {ps qs : List (Pair N)} :
      Run grammar e a (some (ps, b)) → Run grammar f b (some (qs, c)) →
      Run grammar (.seq e f) a (some (ps ++ qs, c))
  | seqFails {e f : Expr N} {a : Cursor} : Run grammar e a none → Run grammar (.seq e f) a none
  | seqFailsAfter {e f : Expr N} {a b : Cursor} {ps : List (Pair N)} :
      Run grammar e a (some (ps, b)) → Run grammar f b none → Run grammar (.seq e f) a none
  | first {e f : Expr N} {a : Cursor} {found : List (Pair N) × Cursor} :
      Run grammar e a (some found) → Run grammar (.choice e f) a (some found)
  | second {e f : Expr N} {a : Cursor} {outcome : Option (List (Pair N) × Cursor)} :
      Run grammar e a none → Run grammar f a outcome → Run grammar (.choice e f) a outcome
  | stop {e : Expr N} {a : Cursor} : Run grammar e a none → Run grammar (.star e) a (some ([], a))
  | more {e : Expr N} {a b c : Cursor} {ps qs : List (Pair N)} :
      Run grammar e a (some (ps, b)) → Run grammar (.star e) b (some (qs, c)) →
      Run grammar (.star e) a (some (ps ++ qs, c))
  | no {e : Expr N} {a : Cursor} : Run grammar e a none → Run grammar (.no e) a (some ([], a))
  | noFails {e : Expr N} {a : Cursor} {found : List (Pair N) × Cursor} :
      Run grammar e a (some found) → Run grammar (.no e) a none
  | call {name : N} {a b : Cursor} {inner : List (Pair N)} {text : List Char} :
      Run grammar (grammar name).body a (some (inner, b)) → a.left = text ++ b.left →
      Run grammar (.call name) a
        (some ([.node name a.offset text ((grammar name).kept inner)], b))
  | callFails {name : N} {a : Cursor} :
      Run grammar (grammar name).body a none → Run grammar (.call name) a none

def Settled (grammar : N → Definition N) (e : Expr N) (a : Cursor)
    (outcome : Option (List (Pair N) × Cursor)) : Prop :=
  ∀ other, Run grammar e a other → outcome = other

def Expr.IsTerminal : Expr N → Prop
  | char _ | literal _ | start | finish => True
  | _ => False

variable {e f : Expr N} {a b c : Cursor} {outcome other : Option (List (Pair N) × Cursor)}
  {ps qs : List (Pair N)}

theorem settled_of_terminal (he : e.IsTerminal) (h : Run grammar e a outcome) :
    Settled grammar e a outcome := by
  intro other h'
  cases h with
  | char hp =>
    cases h' with
    | char => rfl
    | charFails hno => rw [hno _ rfl] at hp; cases hp
  | charFails hno =>
    cases h' with
    | char hp => rw [hno _ rfl] at hp; cases hp
    | charFails => rfl
  | @literal s n cs =>
    generalize hleft : s.toList ++ cs = left at h'
    cases h' with
    | literal => rw [List.append_cancel_left hleft]
    | literalFails hno => exact absurd ⟨cs, hleft⟩ hno
  | literalFails hno =>
    cases h' with
    | literal => exact absurd ⟨_, rfl⟩ hno
    | literalFails => rfl
  | start =>
    cases h' with
    | start => rfl
    | startFails hn => exact absurd rfl hn
  | startFails hn =>
    cases h' with
    | start => exact absurd rfl hn
    | startFails => rfl
  | finish =>
    cases h' with
    | finish => rfl
    | finishFails hcs => exact absurd rfl hcs
  | finishFails hcs =>
    cases h' with
    | finish => exact absurd rfl hcs
    | finishFails => rfl
  | _ => exact he.elim

namespace Settled

theorem seq {rest : Option (List (Pair N) × Cursor)} (he : Settled grammar e a (some (ps, b)))
    (hf : Settled grammar f b rest) :
    Settled grammar (.seq e f) a (rest.map fun read => (ps ++ read.1, read.2)) := by
  intro other h
  cases h with
  | seq he' hf' =>
    cases he _ he'
    cases hf _ hf'
    rfl
  | seqFails he' => cases he _ he'
  | seqFailsAfter he' hf' =>
    cases he _ he'
    cases hf _ hf'
    rfl

theorem seq_of_none (he : Settled grammar e a none) : Settled grammar (.seq e f) a none := by
  intro other h
  cases h with
  | seq he' => cases he _ he'
  | seqFails => rfl
  | seqFailsAfter => rfl

theorem choice {found : List (Pair N) × Cursor} (he : Settled grammar e a (some found)) :
    Settled grammar (.choice e f) a (some found) := by
  intro other h
  cases h with
  | first he' => exact he _ he'
  | second he' => cases he _ he'

theorem choice_of_none (he : Settled grammar e a none) (hf : Settled grammar f a outcome) :
    Settled grammar (.choice e f) a outcome := by
  intro other h
  cases h with
  | first he' => cases he _ he'
  | second _ hf' => exact hf _ hf'

theorem star (he : Settled grammar e a (some (ps, b)))
    (hs : Settled grammar (.star e) b (some (qs, c))) :
    Settled grammar (.star e) a (some (ps ++ qs, c)) := by
  intro other h
  cases h with
  | stop he' => cases he _ he'
  | more he' hs' =>
    cases he _ he'
    cases hs _ hs'
    rfl

theorem star_of_none (he : Settled grammar e a none) :
    Settled grammar (.star e) a (some ([], a)) := by
  intro other h
  cases h with
  | stop => rfl
  | more he' => cases he _ he'

theorem no (he : Settled grammar e a outcome) :
    Settled grammar (.no e) a (if outcome.isSome then none else some ([], a)) := by
  intro other h
  cases h with
  | no he' =>
    cases he _ he'
    rfl
  | noFails he' =>
    cases he _ he'
    rfl

theorem call {name : N} {inner : List (Pair N)} {text : List Char}
    (he : Settled grammar (grammar name).body a (some (inner, b))) (htext : a.left = text ++ b.left) :
    Settled grammar (.call name) a
      (some ([.node name a.offset text ((grammar name).kept inner)], b)) := by
  intro other h
  cases h with
  | call he' htext' =>
    cases he _ he'
    rw [List.append_cancel_right (htext.symm.trans htext')]
  | callFails he' => cases he _ he'

theorem call_of_none {name : N} (he : Settled grammar (grammar name).body a none) :
    Settled grammar (.call name) a none := by
  intro other h
  cases h with
  | call he' => cases he _ he'
  | callFails => rfl

end Settled

namespace Run

theorem settled (h : Run grammar e a outcome) : Settled grammar e a outcome := by
  induction h with
  | char hp => exact settled_of_terminal trivial (.char hp)
  | charFails hno => exact settled_of_terminal trivial (.charFails hno)
  | literal => exact settled_of_terminal trivial .literal
  | literalFails hno => exact settled_of_terminal trivial (.literalFails hno)
  | start => exact settled_of_terminal trivial .start
  | startFails hn => exact settled_of_terminal trivial (.startFails hn)
  | finish => exact settled_of_terminal trivial .finish
  | finishFails hcs => exact settled_of_terminal trivial (.finishFails hcs)
  | seq _ _ ihe ihf => exact ihe.seq ihf
  | seqFails _ ihe => exact ihe.seq_of_none
  | seqFailsAfter _ _ ihe ihf => exact ihe.seq ihf
  | first _ ihe => exact ihe.choice
  | second _ _ ihe ihf => exact ihe.choice_of_none ihf
  | stop _ ihe => exact ihe.star_of_none
  | more _ _ ihe ihs => exact ihe.star ihs
  | no _ ihe => exact ihe.no
  | noFails _ ihe => exact ihe.no
  | call _ htext ihe => exact ihe.call htext
  | callFails _ ihe => exact ihe.call_of_none

theorem unique (h : Run grammar e a outcome) (h' : Run grammar e a other) : outcome = other :=
  h.settled other h'

theorem empty (a : Cursor) : Run grammar .empty a (some ([], a)) := .literal

theorem choose_append {es fs : List (Expr N)}
    (h : Run grammar (.choice (.choose es) (.choose fs)) a outcome) :
    Run grammar (.choose (es ++ fs)) a outcome := by
  induction es with
  | nil =>
    cases h with
    | first hfail => cases hfail with | char h => cases h
    | second _ hrest => exact hrest
  | cons e es ih =>
    cases h with
    | first hes =>
      cases hes with
      | first he => exact .first he
      | second he hes => exact .second he (ih (.first hes))
    | second hes hrest =>
      cases hes with
      | second he hes => exact .second he (ih (.second hes hrest))

end Run

end

end Manuscript.Peg

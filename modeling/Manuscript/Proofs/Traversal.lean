import Manuscript.Proofs.Everywhere

namespace Manuscript

section Shape

inductive EntriesRebuilt :
    List (String × Value) → List Line → List Line → List (String × Value) → Prop
  | nil : EntriesRebuilt [] [] [] []
  | elements {name : String} {content content' : Line} {entries entries' : List (String × Value)}
      {owned results : List Line} : EntriesRebuilt entries owned results entries' →
      EntriesRebuilt ((name, .elements content) :: entries) (content :: owned) (content' :: results)
        ((name, .elements content') :: entries')
  | other {name : String} {value : Value} {entries entries' : List (String × Value)}
      {owned results : List Line} : value.sequences = [] → EntriesRebuilt entries owned results entries' →
      EntriesRebuilt ((name, value) :: entries) owned results ((name, value) :: entries')

def Element.Childless : Element → Prop
  | .text _ | .placeholder _ | .special _ | .symbol _ | .lineBreak | .callout _
  | .attributeReference _ | .counter _ | .crossReference _ _ | .footnoteReference _ _ _
  | .hiddenIndexTerm _ _ _ | .declaration _ _ | .reset _ | .blankLine | .thematicBreak
  | .comment _ => True
  | _ => False

inductive Element.Rebuilt : Element → List Line → List Line → Element → Prop
  | quoted {style : Style} {entries entries' : List (String × Value)} {content content' : Line}
      {owned results : List Line} : EntriesRebuilt entries owned results entries' →
      Rebuilt (.quoted style ⟨entries⟩ content) (content :: owned) (content' :: results)
        (.quoted style ⟨entries'⟩ content')
  | quotation {mark : QuoteMark} {content content' : Line} :
      Rebuilt (.quotation mark content) [content] [content'] (.quotation mark content')
  | passthrough {shield : Shield} {content content' : Line} :
      Rebuilt (.passthrough shield content) [content] [content'] (.passthrough shield content')
  | link {scheme : String} {path path' : Line} {entries entries' : List (String × Value)}
      {owned results : List Line} : EntriesRebuilt entries owned results entries' →
      Rebuilt (.link ⟨scheme, path⟩ ⟨entries⟩) (path :: owned) (path' :: results)
        (.link ⟨scheme, path'⟩ ⟨entries'⟩)
  | image {scheme : String} {path path' : Line} {entries entries' : List (String × Value)}
      {owned results : List Line} : EntriesRebuilt entries owned results entries' →
      Rebuilt (.image ⟨scheme, path⟩ ⟨entries⟩) (path :: owned) (path' :: results)
        (.image ⟨scheme, path'⟩ ⟨entries'⟩)
  | icon {name : String} {entries entries' : List (String × Value)} {owned results : List Line} :
      EntriesRebuilt entries owned results entries' →
      Rebuilt (.icon name ⟨entries⟩) owned results (.icon name ⟨entries'⟩)
  | documentReference {scheme : String} {path path' label label' : Line} :
      Rebuilt (.documentReference ⟨scheme, path⟩ label) [path, label] [path', label']
        (.documentReference ⟨scheme, path'⟩ label')
  | footnote {reference : Option String} {content content' : Line} :
      Rebuilt (.footnote reference content) [content] [content'] (.footnote reference content')
  | indexTerm {term term' : Line} : Rebuilt (.indexTerm term) [term] [term'] (.indexTerm term')
  | sectionBlock {level : UInt8} {attributes : Attributes} {title title' elements elements' : Line} :
      Rebuilt (.sectionBlock level attributes title elements) [title, elements] [title', elements']
        (.sectionBlock level attributes title' elements')
  | paragraph {attributes : Attributes} {lines lines' : List Line} : lines'.length = lines.length →
      Rebuilt (.paragraph attributes lines) lines lines' (.paragraph attributes lines')
  | lineBlock {kind : BlockKind} {attributes : Attributes} {lines lines' : List Line} :
      lines'.length = lines.length →
      Rebuilt (.lineBlock kind attributes lines) lines lines' (.lineBlock kind attributes lines')
  | elementBlock {kind : BlockKind} {attributes : Attributes} {elements elements' : Line} :
      Rebuilt (.elementBlock kind attributes elements) [elements] [elements']
        (.elementBlock kind attributes elements')
  | imageBlock {scheme : String} {path path' : Line} {attributes : Attributes} :
      Rebuilt (.imageBlock ⟨scheme, path⟩ attributes) [path] [path']
        (.imageBlock ⟨scheme, path'⟩ attributes)
  | listItem {marker : Marker} {attributes : Attributes} {elements elements' : Line} :
      Rebuilt (.listItem marker attributes elements) [elements] [elements']
        (.listItem marker attributes elements')
  | labeledItem {level : UInt8} {term term' elements elements' : Line} {attributes : Attributes} :
      Rebuilt (.labeledItem level term attributes elements) [term, elements] [term', elements']
        (.labeledItem level term' attributes elements')
  | continued {offset : Int32} {x y : Element} {owned results : List Line} :
      Rebuilt x owned results y →
      Rebuilt (.continued offset x) owned results (.continued offset y)
  | childless {x : Element} : x.Childless → Rebuilt x [] [] x

theorem EntriesRebuilt.eq {entries entries' : List (String × Value)} {owned results : List Line}
    (h : EntriesRebuilt entries owned results entries') :
    owned = sequencesOf entries ∧ results.length = owned.length ∧
      entries' = withSequences entries results := by
  induction h with
  | nil => exact ⟨rfl, rfl, rfl⟩
  | elements _ ih =>
    obtain ⟨rfl, hlength, rfl⟩ := ih
    exact ⟨rfl, congrArg (· + 1) hlength, rfl⟩
  | @other _ value _ _ _ _ hvalue _ ih =>
    obtain ⟨rfl, hlength, rfl⟩ := ih
    cases value with
    | elements content => cases hvalue
    | _ => exact ⟨rfl, hlength, rfl⟩

theorem entriesRebuilt {entries : List (String × Value)} {results : List Line}
    (h : results.length = (sequencesOf entries).length) :
    EntriesRebuilt entries (sequencesOf entries) results (withSequences entries results) := by
  induction entries generalizing results with
  | nil =>
    obtain rfl := List.length_eq_zero_iff.mp h
    exact .nil
  | cons entry rest ih =>
    obtain ⟨name, value⟩ := entry
    cases value with
    | elements content =>
      obtain ⟨first, others, rfl⟩ := List.exists_cons_of_length_eq_add_one h
      exact .elements (ih (Nat.succ.inj h))
    | _ =>
      exact .other rfl (ih h)

namespace Element

variable {x y : Element} {owned results : List Line}

theorem Rebuilt.eq (h : x.Rebuilt owned results y) :
    owned = x.children ∧ results.length = owned.length ∧ y = x.withChildren results := by
  induction h with
  | quoted hentries | link hentries | image hentries =>
    obtain ⟨rfl, hlength, rfl⟩ := hentries.eq
    exact ⟨rfl, congrArg (· + 1) hlength, rfl⟩
  | icon hentries =>
    obtain ⟨rfl, hlength, rfl⟩ := hentries.eq
    exact ⟨rfl, hlength, rfl⟩
  | paragraph hlength | lineBlock hlength => exact ⟨rfl, hlength, rfl⟩
  | continued _ ih =>
    obtain ⟨rfl, hlength, rfl⟩ := ih
    exact ⟨rfl, hlength, rfl⟩
  | @childless x hx => cases x <;> first | exact ⟨rfl, rfl, rfl⟩ | exact hx.elim
  | _ => exact ⟨rfl, rfl, rfl⟩

theorem rebuilt (h : results.length = x.children.length) :
    x.Rebuilt x.children results (x.withChildren results) := by
  fun_induction children x generalizing results with
  | case1 | case4 | case5 =>
    obtain ⟨first, rest, rfl⟩ := List.exists_cons_of_length_eq_add_one h
    constructor
    exact entriesRebuilt (Nat.succ.inj h)
  | case6 => exact .icon (entriesRebuilt h)
  | case7 | case10 | case16 =>
    obtain ⟨first, rest, rfl⟩ := List.exists_cons_of_length_eq_add_one h
    obtain ⟨second, rfl⟩ := List.length_eq_one_iff.mp (Nat.succ.inj h)
    constructor
  | case11 => exact .paragraph h
  | case12 => exact .lineBlock h
  | case17 offset x ih => exact .continued (ih h)
  | case18 x =>
    obtain rfl := List.length_eq_zero_iff.mp h
    cases x <;> first | exact .childless trivial | grind
  | _ =>
    obtain ⟨only, rfl⟩ := List.length_eq_one_iff.mp h
    constructor

theorem Rebuilt.children_eq (h : x.Rebuilt owned results y) :
    owned = x.children ∧ results = y.children := by
  obtain ⟨rfl, hlength, rfl⟩ := h.eq
  exact ⟨rfl, (children_withChildren hlength).symm⟩

theorem rebuilt_self (x : Element) : x.Rebuilt x.children x.children x := by
  have hsame : x.Rebuilt x.children x.children (x.withChildren x.children) := rebuilt rfl
  rwa [withChildren_children] at hsame

end Element

end Shape

section Calls

variable {ε σ α β : Type}

def attempt (s : σ) (action : ExceptT ε (StateM σ) α) : Except ε α × σ := action.run.run s

theorem attempt_bind (s : σ) (action : ExceptT ε (StateM σ) α) (next : α → ExceptT ε (StateM σ) β) :
    attempt s (action >>= next) =
      match attempt s action with
      | (.ok a, s') => attempt s' (next a)
      | (.error e, s') => (.error e, s') := by
  simp only [attempt, ExceptT.run_bind, StateT.run_bind]
  cases h : action.run.run s with
  | mk outcome s' => cases outcome <;> rfl

theorem attempt_map (s : σ) (g : α → β) (action : ExceptT ε (StateM σ) α) :
    attempt s (g <$> action) = ((attempt s action).1.map g, (attempt s action).2) := by
  rw [map_eq_pure_bind, attempt_bind]
  split <;> next h => rw [h]; rfl

variable {f : Line → ExceptT ε (StateM σ) Line} {s s' : σ} {lines results : List Line}

inductive Calls (f : Line → ExceptT ε (StateM σ) Line) : σ → List Line → List Line → σ → Prop
  | nil {s : σ} : Calls f s [] [] s
  | cons {s t s' : σ} {line result : Line} {lines results : List Line} :
      attempt s (f line) = (.ok result, t) → Calls f t lines results s' →
      Calls f s (line :: lines) (result :: results) s'

theorem Calls.length_eq (h : Calls f s lines results s') : results.length = lines.length := by
  induction h with
  | nil => rfl
  | cons _ _ ih => exact congrArg (· + 1) ih

theorem attempt_mapM (f : Line → ExceptT ε (StateM σ) Line) (s : σ) (lines : List Line) :
    (∃ results s', Calls f s lines results s' ∧ attempt s (lines.mapM f) = (.ok results, s')) ∨
    ∃ before line after results t e s', lines = before ++ line :: after ∧
      Calls f s before results t ∧ attempt t (f line) = (.error e, s') ∧
      attempt s (lines.mapM f) = (.error e, s') := by
  induction lines generalizing s with
  | nil => exact .inl ⟨[], s, .nil, rfl⟩
  | cons line rest ih =>
    rw [List.mapM_cons, attempt_bind]
    rcases hfirst : attempt s (f line) with ⟨_ | result, t⟩
    · exact .inr ⟨[], line, rest, [], s, _, t, rfl, .nil, hfirst, rfl⟩
    · dsimp only
      rw [bind_pure_comp, attempt_map]
      obtain ⟨results, s', hcalls, hrest⟩ |
        ⟨before, last, after, results, u, e, s', rfl, hcalls, hlast, hrest⟩ := ih t
      · exact .inl ⟨result :: results, s', .cons hfirst hcalls, by rw [hrest]; rfl⟩
      · exact .inr ⟨line :: before, last, after, result :: results, u, e, s', rfl,
          .cons hfirst hcalls, hlast, by rw [hrest]; rfl⟩

end Calls

namespace Element

section Laws

variable {m : Type → Type} [Monad m] [LawfulMonad m]

theorem mapChildrenM_pure (g : Line → Line) (x : Element) :
    x.mapChildrenM (m := m) (fun s => pure (g s)) = pure (x.withChildren (x.children.map g)) := by
  rw [mapChildrenM, List.mapM_pure, map_pure]

theorem mapChildrenM_id (x : Element) : x.mapChildrenM (m := m) pure = pure x := by
  have hsame := mapChildrenM_pure (m := m) id x
  rwa [List.map_id, withChildren_children] at hsame

theorem mapChildrenM_comp (g h : Line → Line) (x : Element) :
    (x.mapChildrenM (m := m) (fun s => pure (g s)) >>= mapChildrenM fun s => pure (h s)) =
      x.mapChildrenM fun s => pure (h (g s)) := by
  have hlength : (x.children.map g).length = x.children.length := List.length_map g
  rw [mapChildrenM_pure, pure_bind, mapChildrenM_pure, mapChildrenM_pure fun s => h (g s),
    children_withChildren hlength, List.map_map, withChildren_withChildren hlength (by simp)]
  rfl

end Laws

variable {ε σ : Type}

/-- Going through an element is lawful. It does nothing with what changes no sequence, and going through it twice
with pure functions is going through it once with both. Every element of its form is gone through in the same
order. With an action that may fail, either all calls succeed and what they give back is put in the places of the
sequences, or the first failure is what it comes to. -/
theorem mapChildrenM_lawful (x : Element) :
    x.mapChildrenM pure = (pure x : ExceptT ε (StateM σ) Element) ∧
    (∀ g h : Line → Line,
      (x.mapChildrenM (fun s => pure (g s)) >>= mapChildrenM fun s => pure (h s)) =
        (x.mapChildrenM fun s => pure (h (g s)) : ExceptT ε (StateM σ) Element)) ∧
    (∀ owned results y, x.Rebuilt owned results y → owned = x.children ∧ results = y.children) ∧
    ∀ (f : Line → ExceptT ε (StateM σ) Line) (s : σ),
      (∃ results y s', x.Rebuilt x.children results y ∧ Calls f s x.children results s' ∧
        attempt s (x.mapChildrenM f) = (.ok y, s')) ∨
      ∃ before line after results t e s', x.Rebuilt (before ++ line :: after) (before ++ line :: after) x ∧
        Calls f s before results t ∧ attempt t (f line) = (.error e, s') ∧
        attempt s (x.mapChildrenM f) = (.error e, s') := by
  refine ⟨mapChildrenM_id x, fun g h => mapChildrenM_comp g h x, fun _ _ _ => Rebuilt.children_eq,
    fun f s => ?_⟩
  rw [mapChildrenM, attempt_map]
  obtain ⟨results, s', hcalls, hrun⟩ | ⟨before, line, after, results, t, e, s', hsplit, hcalls, hlast, hrun⟩ :=
    attempt_mapM f s x.children
  · exact .inl ⟨results, _, s', rebuilt hcalls.length_eq, hcalls, by rw [hrun]; rfl⟩
  · exact .inr ⟨before, line, after, results, t, e, s', hsplit ▸ rebuilt_self x, hcalls, hlast,
      by rw [hrun]; rfl⟩

def numbering (line : Line) : ExceptT Nat (StateM Nat) Line := do
  let n := (← get) + 1
  set n
  if line.isEmpty then throw n
  return line ++ [.text (Nat.repr n)]

def tagged : Element :=
  .quoted .bold ⟨[("a", .elements [.text "x"]), ("b", .bool true), ("c", .elements [.blankLine])]⟩
    [.text "z"]

def taggedAfter : Element :=
  .quoted .bold ⟨[("a", .elements [.text "x", .text "2"]), ("b", .bool true),
    ("c", .elements [.blankLine, .text "3"])]⟩ [.text "z", .text "1"]

theorem mapChildrenM_lawful_tagged :
    tagged.Rebuilt [[.text "z"], [.text "x"], [.blankLine]]
      [[.text "z", .text "1"], [.text "x", .text "2"], [.blankLine, .text "3"]] taggedAfter ∧
    [[.text "z"], [.text "x"], [.blankLine]] = tagged.children ∧
    [[.text "z", .text "1"], [.text "x", .text "2"], [.blankLine, .text "3"]] = taggedAfter.children ∧
    attempt 0 (tagged.mapChildrenM numbering) = (.ok taggedAfter, 3) ∧
    attempt 0 ((Element.documentReference ⟨"", [.text "x"]⟩ []).mapChildrenM numbering) = (.error 2, 2) := by
  have hrebuilt : tagged.Rebuilt [[.text "z"], [.text "x"], [.blankLine]]
      [[.text "z", .text "1"], [.text "x", .text "2"], [.blankLine, .text "3"]] taggedAfter :=
    .quoted (.elements (.other rfl (.elements .nil)))
  obtain ⟨-, -, hshape, -⟩ := @mapChildrenM_lawful Nat Nat tagged
  obtain ⟨howned, hresults⟩ := hshape _ _ _ hrebuilt
  exact ⟨hrebuilt, howned, hresults, by rfl, by rfl⟩

end Element

end Manuscript

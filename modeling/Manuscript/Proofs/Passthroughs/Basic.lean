import Mathlib.Data.List.Perm.Subperm
import Manuscript.Proofs.Line
import Manuscript.Proofs.Placeholder.Restoration

namespace Manuscript

structure Passthrough where
  shield : Shield
  content : List Element
  held : Bool

def Passthrough.hold (p : Passthrough) : Passthrough := { p with held := true }

def Element.passthrough? : Element → Option Passthrough
  | .passthrough shield content => some ⟨shield, content, false⟩
  | .continued _ element => element.passthrough?
  | _ => none

theorem Element.sizeOf_lt_of_mem_held {x : Element} {s : List Element} (h : s ∈ x.held) :
    sizeOf s < sizeOf x := by
  have attributes {attributes : Dict Value} (h : s ∈ sequencesOf attributes.entries) :
      sizeOf s < sizeOf attributes := by
    obtain ⟨entries⟩ := attributes
    have : sizeOf s < sizeOf entries := sizeOf_lt_of_mem_sequencesOf h
    simp only [Dict.mk.sizeOf_spec]
    omega
  have value {value : Value} (h : s ∈ value.sequences) : sizeOf s < sizeOf value := by
    cases value <;> simp_all [Value.sequences]
  fun_induction held x <;> grind

/-- At any depth, one with others inside before these. Those in an attribute of a block or in a declared value,
where no step goes, are held. -/
def passthroughs (elements : List Element) : List Passthrough :=
  elements.attach.flatMap fun ⟨x, _⟩ =>
    x.passthrough?.toList ++ (x.children.attach.flatMap fun ⟨s, _⟩ => passthroughs s) ++
      (x.held.attach.flatMap fun ⟨s, _⟩ => passthroughs s).map Passthrough.hold
termination_by sizeOf elements
decreasing_by
  all_goals next hx hs =>
    refine Nat.lt_trans ?_ (List.sizeOf_lt_of_mem hx)
    first | exact Element.sizeOf_lt_of_mem_children hs | exact Element.sizeOf_lt_of_mem_held hs

def Element.passthroughs (x : Element) : List Passthrough :=
  x.passthrough?.toList ++ x.children.flatMap Manuscript.passthroughs ++
    (x.held.flatMap Manuscript.passthroughs).map Passthrough.hold

theorem passthroughs_eq (elements : List Element) :
    passthroughs elements = elements.flatMap Element.passthroughs := by
  rw [passthroughs, ← flatMap_attach_val elements]
  congr 1
  funext ⟨x, hx⟩
  simp only [Element.passthroughs, ← flatMap_attach_val x.children, ← flatMap_attach_val x.held]

@[simp] theorem passthroughs_nil : passthroughs [] = [] := by
  rw [passthroughs_eq, List.flatMap_nil]

theorem passthroughs_cons (x : Element) (rest : List Element) :
    passthroughs (x :: rest) = x.passthroughs ++ passthroughs rest := by
  rw [passthroughs_eq, passthroughs_eq, List.flatMap_cons]

@[simp] theorem passthroughs_append (xs ys : List Element) :
    passthroughs (xs ++ ys) = passthroughs xs ++ passthroughs ys := by
  rw [passthroughs_eq, passthroughs_eq, passthroughs_eq, List.flatMap_append]

theorem Element.passthroughs_of_leaf {x : Element} (h : x.passthrough? = none)
    (hchildren : x.children = []) (hheld : x.held = []) : x.passthroughs = [] := by
  rw [passthroughs, h, hchildren, hheld]
  rfl

@[simp] theorem passthroughs_text_cons (s : String) (rest : List Element) :
    passthroughs (.text s :: rest) = passthroughs rest := by
  rw [passthroughs_cons, Element.passthroughs_of_leaf rfl rfl rfl, List.nil_append]

theorem gather_untext (elements : List Element) :
    gather (Option.guard (!·.isText)) elements = elements.filter (!·.isText) := by
  induction elements with
  | nil => exact gather_nil ..
  | cons x rest ih =>
    rw [gather_cons, ih, Element.gather]
    cases x <;> rfl

theorem passthroughs_eq_filter (elements : List Element) :
    passthroughs elements = (elements.filter (!·.isText)).flatMap Element.passthroughs := by
  rw [← passthroughs_eq]
  induction elements with
  | nil => rfl
  | cons x rest ih =>
    cases x
    case text s => rw [passthroughs_text_cons, ih]; rfl
    all_goals rw [passthroughs_cons, ih, ← passthroughs_cons]; rfl

theorem passthroughs_flatten (lines : List Line) :
    passthroughs lines.flatten = (setAside lines).flatMap Element.passthroughs :=
  passthroughs_eq_filter lines.flatten

@[simp] theorem passthroughs_merge (elements : List Element) :
    passthroughs (merge elements) = passthroughs elements := by
  rw [passthroughs_eq_filter, passthroughs_eq_filter elements, ← gather_untext, ← gather_untext,
    gather_merge fun _ => rfl]

theorem passthroughs_splitLines (lines : List Line) :
    passthroughs (splitLines lines).flatten = passthroughs lines.flatten := by
  rw [passthroughs_eq_filter, passthroughs_eq_filter lines.flatten, ← gather_untext,
    ← gather_untext, gather_splitLines fun _ => rfl]

end Manuscript

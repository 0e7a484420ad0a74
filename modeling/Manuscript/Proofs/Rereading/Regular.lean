import Manuscript.Proofs.Markup.Token
import Manuscript.Proofs.Placeholder.Preservation
import Manuscript.Proofs.Splitting

namespace Manuscript

open Pending

mutual

def Element.Quotes (p : List Element → Prop) : Element → Prop
  | .quoted _ _ content => p content ∧ AllQuote p content
  | .quotation _ content => p content ∧ AllQuote p content
  | _ => True

def AllQuote (p : List Element → Prop) : List Element → Prop
  | [] => True
  | element :: rest => element.Quotes p ∧ AllQuote p rest

end

section

variable {p : List Element → Prop} {xs ys : List Element}

theorem allQuote_iff : AllQuote p xs ↔ ∀ x ∈ xs, x.Quotes p := by
  induction xs with
  | nil => exact iff_of_true trivial (List.forall_mem_nil _)
  | cons x rest ih => rw [AllQuote, ih, List.forall_mem_cons]

theorem allQuote_append : AllQuote p (xs ++ ys) ↔ AllQuote p xs ∧ AllQuote p ys := by
  simp only [allQuote_iff, List.forall_mem_append]

theorem Element.Quotes.mono {q : List Element → Prop} (hpq : ∀ content, p content → q content)
    (x : Element) : x.Quotes p → x.Quotes q := by
  refine Element.Quotes.induct (fun x => x.Quotes p → x.Quotes q)
    (fun xs => AllQuote p xs → AllQuote q xs) ?_ ?_ ?_ ?_ ?_ x
  · exact fun _ _ content ih h => ⟨hpq content h.1, ih h.2⟩
  · exact fun _ content ih h => ⟨hpq content h.1, ih h.2⟩
  · intro x hquoted hquotation _
    rw [Element.Quotes.eq_3 _ _ hquoted hquotation]
    trivial
  · exact fun _ => trivial
  · exact fun x rest ih ihrest h => ⟨ih h.1, ihrest h.2⟩

end

structure Regular (xs : List Element) : Prop where
  merged : Merged xs
  unforged : Unforged xs

namespace Regular

variable {x : Element} {xs : List Element} {s : String}

theorem nil : Regular [] := ⟨.nil, fun _ => nofun⟩

theorem tail (h : Regular (x :: xs)) : Regular xs :=
  ⟨h.merged.tail, fun s hs => h.unforged s (List.mem_cons_of_mem _ hs)⟩

theorem cons_other (hx : x.isText = false) (h : Regular xs) : Regular (x :: xs) where
  merged := .cons_other hx h.merged
  unforged s hs :=
    h.unforged s ((List.mem_cons.mp hs).resolve_left fun he => ne_text_of_not_isText hx s he.symm)

theorem cons_text (hs : s ≠ "" ∧ Clean s) (hapart : ∀ y ∈ xs.head?, y.isText = false)
    (h : Regular xs) : Regular (.text s :: xs) where
  merged :=
    Merged.cons_iff.mpr ⟨fun he => hs.1 (Element.text.inj he), fun y hy => .inr (hapart y hy), h.merged⟩
  unforged t ht := by
    rcases List.mem_cons.mp ht with he | ht
    · exact Element.text.inj he ▸ hs.2
    · exact h.unforged t ht

theorem text (hs : s ≠ "" ∧ Clean s) : Regular [.text s] := cons_text hs (fun _ => nofun) nil

end Regular

structure Fixed (parse : String → Except Fault (List Element)) (xs : List Element) : Prop where
  merged : Merged xs
  texts : ∀ s, .text s ∈ xs → parse s = .ok [.text s]

section

variable {parse : String → Except Fault (List Element)} {parsed : List Element}

theorem Fixed.nil : Fixed parse [] := ⟨.nil, fun _ hs => absurd hs List.not_mem_nil⟩

theorem parsePayload_of_fixed (x : Element) :
    x.Quotes (Fixed parse) → parsePayload parse x = .ok x := by
  refine parsePayload.induct
    (fun x => x.Quotes (Fixed parse) → parsePayload parse x = .ok x)
    (fun content => AllQuote (Fixed parse) content →
      (∀ s, .text s ∈ content → parse s = .ok [.text s]) →
      parseFragments parse content = .ok content)
    ?quoted ?quotation ?other ?nil ?text ?cons x
  case quoted =>
    rintro style attributes content ih ⟨hfixed, hall⟩
    rw [parsePayload, ih hall hfixed.texts]
    exact congrArg (fun content => Except.ok (Element.quoted style attributes content))
      hfixed.merged.merge_eq
  case quotation =>
    rintro mark content ih ⟨hfixed, hall⟩
    rw [parsePayload, ih hall hfixed.texts]
    exact congrArg (fun content => Except.ok (Element.quotation mark content))
      hfixed.merged.merge_eq
  case other =>
    intro x hquoted hquotation _
    exact parsePayload.eq_3 _ _ hquoted hquotation
  case nil =>
    intro _ _
    rw [parseFragments]
    rfl
  case text =>
    intro s rest ih hall hfixed
    rw [parseFragments, hfixed s List.mem_cons_self,
      ih hall.2 fun t ht => hfixed t (List.mem_cons_of_mem _ ht)]
    rfl
  case cons =>
    intro x rest hnot ih ihrest hall hfixed
    rw [parseFragments.eq_3 _ _ _ hnot, ih hall.1,
      ihrest hall.2 fun s hs => hfixed s (List.mem_cons_of_mem _ hs)]
    rfl

def Fixes (parse : String → Except Fault (List Element)) : Prop :=
  ∀ {s parsed}, s ≠ "" → Clean s → parse s = .ok parsed →
    Fixed parse parsed ∧ AllQuote (Fixed parse) parsed

theorem fixed_of_parsePayload (hparse : Fixes parse) (x : Element) :
    x.Quotes Regular → ∀ y, parsePayload parse x = .ok y → y.Quotes (Fixed parse) := by
  intro hx y h
  refine payload_induction
    (P := fun x y => x.Quotes Regular → y.Quotes (Fixed parse))
    (Q := fun content fragments => AllQuote Regular content → Regular content →
      Fixed parse fragments ∧ AllQuote (Fixed parse) fragments ∧
        ((∀ x ∈ content.head?, x.isText = false) → ∀ x ∈ fragments.head?, x.isText = false))
    ?quoted ?quotation ?other ?nil ?text ?cons h hx
  case quoted =>
    rintro style attributes content fragments ih ⟨hregular, hall⟩
    obtain ⟨hfixed, hquotes, -⟩ := ih hall hregular
    rw [hfixed.merged.merge_eq]
    exact ⟨hfixed, hquotes⟩
  case quotation =>
    rintro mark content fragments ih ⟨hregular, hall⟩
    obtain ⟨hfixed, hquotes, -⟩ := ih hall hregular
    rw [hfixed.merged.merge_eq]
    exact ⟨hfixed, hquotes⟩
  case other =>
    intro x hquoted hquotation _
    fun_cases Element.Quotes (Fixed parse) x with
    | case1 => exact absurd rfl (hquoted _ _ _)
    | case2 => exact absurd rfl (hquotation _ _)
    | case3 => trivial
  case nil => exact fun _ _ => ⟨.nil, trivial, fun _ x hx => absurd hx (Option.not_mem_none x)⟩
  case text =>
    intro s rest parsed others hparsed ih hall hregular
    obtain ⟨hs, hhead, -⟩ := Merged.cons_iff.mp hregular.merged
    obtain ⟨hfixed, hquotes⟩ := hparse (fun he => hs (he ▸ rfl))
      (hregular.unforged s List.mem_cons_self) hparsed
    obtain ⟨hrest, hquotesRest, hstart⟩ := ih hall.2 hregular.tail
    -- What follows a text is no text, before and after it is read again.
    have hapart := hstart fun y hy => (hhead y hy).resolve_left (by simp [Element.isText])
    refine ⟨⟨hfixed.merged.append hrest.merged hapart, fun t ht => ?_⟩,
      allQuote_append.mpr ⟨hquotes, hquotesRest⟩, fun h => by cases h (.text s) rfl⟩
    exact (List.mem_append.mp ht).elim (hfixed.texts t) (hrest.texts t)
  case cons =>
    intro x rest payload others hnot hpayload ih ihrest hall hregular
    obtain ⟨hrest, hquotesRest, -⟩ := ihrest hall.2 hregular.tail
    have htext : payload.isText = false := (isText_of_parsePayload hpayload).trans hnot
    refine ⟨⟨.cons_other htext hrest.merged, fun t ht => ?_⟩,
      ⟨ih hall.1, hquotesRest⟩, fun _ y hy => Option.some.inj hy ▸ htext⟩
    exact hrest.texts t ((List.mem_cons.mp ht).resolve_left fun he => by
      rw [← he] at htext
      cases htext)

end

end Manuscript

import Manuscript.Proofs.Encoding.RoundTrip
import Manuscript.Proofs.Markup.Inline

namespace Manuscript

open Json

def ReadWithin (n : Nat) (s : List Element) : Prop :=
  ∃ items, elements? items = some s ∧ sizeOf items ≤ n

structure Dict.DecodedWithin (n : Nat) (attributes : Attributes) : Prop where
  ordered : attributes.Ordered
  parts : ∀ s ∈ sequencesOf attributes.entries, ReadWithin n s

structure Element.DecodedWithin (n : Nat) (x : Element) : Prop where
  sorted : x.Sorted
  parts : ∀ s ∈ x.children ++ x.held, ReadWithin n s

section Parts

variable {n m : Nat} {name : String} {j : Json} {items : List Json}
  {fields : List (String × Json)} {entries : List (String × Value)} {attributes : Attributes}
  {s : List Element} {lines : List Line} {x : Element}

theorem ReadWithin.mono (h : ReadWithin n s) (hle : n ≤ m) : ReadWithin m s := by
  obtain ⟨items, hitems, hsize⟩ := h
  exact ⟨items, hitems, hsize.trans hle⟩

theorem readWithin_nil (fields : List (String × Json)) : ReadWithin (sizeOf fields) [] :=
  ⟨[], by rw [elements?], by cases fields <;> (simp; try omega)⟩

theorem readWithin_arr (h : elements? items = some s) (hsize : sizeOf (arr items) < n) :
    ReadWithin n s := by
  rw [arr.sizeOf_spec] at hsize
  exact ⟨items, h, by omega⟩

namespace Element

theorem DecodedWithin.mono (h : x.DecodedWithin n) (hle : n ≤ m) : x.DecodedWithin m :=
  ⟨h.sorted, fun s hs => (h.parts s hs).mono hle⟩

theorem decodedWithin_of_children (hattributes : x.attributes? = none) (hheld : x.held = [])
    (hchildren : ∀ s ∈ x.children, ReadWithin n s) : x.DecodedWithin n where
  sorted _ ha := by
    rw [hattributes] at ha
    cases ha
  parts := by
    rw [hheld, List.append_nil]
    exact hchildren

theorem decodedWithin_of_leaf (hattributes : x.attributes? = none) (hchildren : x.children = [])
    (hheld : x.held = []) : x.DecodedWithin n :=
  decodedWithin_of_children hattributes hheld fun s hs => by rw [hchildren] at hs; cases hs

theorem decodedWithin_of_inline (ss : List (List Element)) (ha : attributes.DecodedWithin n)
    (hattributes : x.attributes? = some attributes)
    (hchildren : x.children = ss ++ sequencesOf attributes.entries) (hheld : x.held = [])
    (hss : ∀ s ∈ ss, ReadWithin n s) : x.DecodedWithin n where
  sorted a h := Option.some.inj (hattributes.symm.trans h) ▸ ha.ordered
  parts := by
    rw [hchildren, hheld, List.append_nil]
    exact List.forall_mem_append.mpr ⟨hss, ha.parts⟩

theorem decodedWithin_of_block (ha : attributes.DecodedWithin n)
    (hattributes : x.attributes? = some attributes) (hheld : x.held = sequencesOf attributes.entries)
    (hchildren : ∀ s ∈ x.children, ReadWithin n s) : x.DecodedWithin n where
  sorted a h := Option.some.inj (hattributes.symm.trans h) ▸ ha.ordered
  parts := by
    rw [hheld]
    exact List.forall_mem_append.mpr ⟨hchildren, ha.parts⟩

end Element

theorem decodedWithin_of_bare? (h : bare? name = some x) : x.DecodedWithin n := by
  unfold bare? at h
  split at h <;> cases h <;> exact Element.decodedWithin_of_leaf rfl rfl rfl

theorem decodedWithin_of_leaf? {payload : Json} (h : leaf? name payload = some x) :
    x.DecodedWithin n := by
  unfold leaf? at h
  split at h <;> simp only [Option.bind_eq_bind, Option.bind_eq_some_iff, Option.pure_def,
    Option.map_eq_some_iff, Option.some.injEq, reduceCtorEq] at h <;>
    grind [Element.decodedWithin_of_leaf, Element.attributes?, Element.children, Element.held]

theorem readWithin_of_lines? (h : lines? items = some lines) :
    ∀ line ∈ lines, ReadWithin (sizeOf items) line := by
  induction items generalizing lines with
  | nil =>
    rw [lines?] at h
    cases h
    exact List.forall_mem_nil _
  | cons item rest ih =>
    rw [lines?.eq_def] at h
    split at h
    · next hnil => cases hnil
    · next items' rest' hcons =>
      cases hcons
      simp only [Option.bind_eq_bind, Option.bind_eq_some_iff, Option.pure_def,
        Option.some.injEq] at h
      obtain ⟨line, hline, others, hothers, rfl⟩ := h
      refine List.forall_mem_cons.mpr ⟨readWithin_arr hline (by simp; omega), fun s hs => ?_⟩
      exact (ih hothers s hs).mono (by simp)
    · cases h

theorem readWithin_of_value? {value : Value} (h : Value.ofJson? j = some value) :
    ∀ s ∈ value.sequences, ReadWithin (sizeOf j) s := by
  rw [Value.ofJson?.eq_def] at h
  split at h
  all_goals try simp only [Option.map_eq_some_iff, Option.some.injEq, reduceCtorEq] at h
  case h_1 | h_2 =>
    subst h
    exact List.forall_mem_nil _
  case h_3 | h_4 | h_6 | h_7 | h_8 =>
    obtain ⟨_, -, rfl⟩ := h
    exact List.forall_mem_nil _
  case h_5 =>
    obtain ⟨content, hcontent, rfl⟩ := h
    exact List.forall_mem_singleton.mpr (readWithin_arr hcontent (by simp; omega))

theorem readWithin_of_entries? (h : entries? fields = some entries) :
    ∀ s ∈ sequencesOf entries, ReadWithin (sizeOf fields) s := by
  induction fields generalizing entries with
  | nil =>
    rw [entries?] at h
    cases h
    exact List.forall_mem_nil _
  | cons field rest ih =>
    obtain ⟨name, j⟩ := field
    simp only [entries?, Option.bind_eq_bind, Option.bind_eq_some_iff, Option.pure_def,
      Option.some.injEq] at h
    obtain ⟨value, hvalue, read, hread, rfl⟩ := h
    rw [sequencesOf_eq_flatMap, List.flatMap_cons, List.forall_mem_append,
      ← sequencesOf_eq_flatMap]
    have hfirst : sizeOf j ≤ sizeOf ((name, j) :: rest) := by simp; omega
    have hrest : sizeOf rest ≤ sizeOf ((name, j) :: rest) := by simp
    exact ⟨fun s hs => (readWithin_of_value? hvalue s hs).mono hfirst,
      fun s hs => (ih hread s hs).mono hrest⟩

theorem Dict.decodedWithin_empty : (∅ : Attributes).DecodedWithin n :=
  ⟨Dict.ordered_empty, List.forall_mem_nil _⟩

theorem decodedWithin_of_attributes? (h : attributes? j = some attributes) :
    attributes.DecodedWithin (sizeOf j) := by
  unfold attributes? at h
  split at h
  · obtain ⟨entries, hentries, rfl⟩ := Option.map_eq_some_iff.mp h
    refine ⟨Dict.ordered_ofList entries, fun s hs => ?_⟩
    exact (readWithin_of_entries? hentries s (mem_sequencesOf_ofList hs)).mono (by simp)
  · cases h

theorem decodedWithin_of_attributesIn? (h : attributesIn? fields = some attributes) :
    attributes.DecodedWithin (sizeOf fields) := by
  rw [attributesIn?.eq_def] at h
  split at h
  · cases h
    exact Dict.decodedWithin_empty
  · next entries hsize _ =>
    have ha := decodedWithin_of_attributes? (j := .obj entries) h
    exact ⟨ha.ordered, fun s hs => (ha.parts s hs).mono hsize.le⟩
  · cases h

theorem readWithin_of_sequenceIn? (h : sequenceIn? name fields = some s) :
    ReadWithin (sizeOf fields) s := by
  rw [sequenceIn?.eq_def] at h
  split at h
  · next hsize _ => exact readWithin_arr h hsize
  · cases h

theorem readWithin_of_sequenceOrEmptyIn? (h : sequenceOrEmptyIn? name fields = some s) :
    ReadWithin (sizeOf fields) s := by
  rw [sequenceOrEmptyIn?.eq_def] at h
  split at h
  · cases h
    exact readWithin_nil fields
  · next hsize _ => exact readWithin_arr h hsize
  · cases h

theorem readWithin_of_linesIn? (h : linesIn? fields = some lines) :
    ∀ line ∈ lines, ReadWithin (sizeOf fields) line := by
  rw [linesIn?.eq_def] at h
  split at h
  · next items hsize _ =>
    rw [arr.sizeOf_spec] at hsize
    exact fun line hline => (readWithin_of_lines? h line hline).mono (by omega)
  · cases h

theorem readWithin_of_locationIn? {location : Location Element}
    (h : locationIn? fields = some location) : ReadWithin (sizeOf fields) location.path := by
  rw [locationIn?.eq_def] at h
  split at h
  · next parts hsize _ =>
    simp only [Option.bind_eq_bind, Option.bind_eq_some_iff, Option.pure_def, Option.some.injEq] at h
    obtain ⟨scheme, -, path, hpath, rfl⟩ := h
    rw [obj.sizeOf_spec] at hsize
    exact (readWithin_of_sequenceIn? hpath).mono (by omega)
  · cases h

theorem decodedWithin_of_blockIn? {kind : BlockKind}
    (ha : attributes.DecodedWithin (sizeOf fields)) (h : blockIn? kind attributes fields = some x) :
    x.DecodedWithin (sizeOf fields) := by
  rw [blockIn?.eq_def] at h
  split at h
  · next j hsize _ =>
    split at h
    · cases h
    · next name items hitems _ =>
      have hle : sizeOf items ≤ sizeOf fields := (hitems.trans hsize).le
      split at h
      · obtain ⟨lines, hlines, rfl⟩ := Option.map_eq_some_iff.mp h
        exact Element.decodedWithin_of_block ha rfl rfl fun line hline =>
          (readWithin_of_lines? hlines line hline).mono hle
      · split at h
        · obtain ⟨elements, helements, rfl⟩ := Option.map_eq_some_iff.mp h
          exact Element.decodedWithin_of_block ha rfl rfl
            (List.forall_mem_singleton.mpr ⟨items, helements, hle⟩)
        · cases h
  · cases h

theorem decodedWithin_of_itemIn? {elements : List Element}
    (ha : attributes.DecodedWithin (sizeOf fields)) (helements : ReadWithin (sizeOf fields) elements)
    (h : itemIn? attributes elements fields = some x) : x.DecodedWithin (sizeOf fields) := by
  rw [itemIn?.eq_def] at h
  split at h
  · next j hsize _ =>
    split at h
    · next parts hparts _ =>
      simp only [Option.bind_eq_bind, Option.bind_eq_some_iff, Option.pure_def,
        Option.some.injEq] at h
      obtain ⟨level, -, term, hterm, rfl⟩ := h
      have hterm := (readWithin_of_sequenceIn? hterm).mono (hparts.trans hsize).le
      exact Element.decodedWithin_of_block ha rfl rfl (by simp [Element.children, hterm, helements])
    · obtain ⟨marker, -, rfl⟩ := Option.map_eq_some_iff.mp h
      exact Element.decodedWithin_of_block ha rfl rfl (List.forall_mem_singleton.mpr helements)
  · cases h

theorem decodedWithin_of_phrase? (h : phrase? name fields = some x) :
    x.DecodedWithin (sizeOf fields) := by
  rw [phrase?.eq_def] at h
  split at h
  all_goals try simp only [Option.bind_eq_bind, Option.bind_eq_some_iff, Option.pure_def,
    Option.some.injEq] at h
  -- quoted text
  case h_1 =>
    obtain ⟨style, -, attributes, ha, content, hcontent, rfl⟩ := h
    have hcontent := readWithin_of_sequenceIn? hcontent
    exact Element.decodedWithin_of_inline [content] (decodedWithin_of_attributesIn? ha) rfl rfl rfl
      (List.forall_mem_singleton.mpr hcontent)
  -- quotations and passthroughs
  case h_2 | h_3 =>
    obtain ⟨-, -, content, hcontent, rfl⟩ := h
    have hcontent := readWithin_of_sequenceIn? hcontent
    exact Element.decodedWithin_of_children rfl rfl (List.forall_mem_singleton.mpr hcontent)
  -- links and images
  case h_4 | h_5 =>
    obtain ⟨location, hlocation, attributes, ha, rfl⟩ := h
    have hpath := readWithin_of_locationIn? hlocation
    exact Element.decodedWithin_of_inline [location.path] (decodedWithin_of_attributesIn? ha) rfl rfl
      rfl (List.forall_mem_singleton.mpr hpath)
  -- icons
  case h_6 =>
    obtain ⟨name, -, attributes, ha, rfl⟩ := h
    exact Element.decodedWithin_of_inline [] (decodedWithin_of_attributesIn? ha) rfl rfl rfl
      (List.forall_mem_nil _)
  -- document references
  case h_7 =>
    obtain ⟨location, hlocation, label, hlabel, rfl⟩ := h
    have hpath := readWithin_of_locationIn? hlocation
    have hlabel := readWithin_of_sequenceOrEmptyIn? hlabel
    exact Element.decodedWithin_of_children rfl rfl (by simp [Element.children, hpath, hlabel])
  -- footnotes
  case h_8 =>
    obtain ⟨reference, -, content, hcontent, rfl⟩ := h
    have hcontent := readWithin_of_sequenceOrEmptyIn? hcontent
    exact Element.decodedWithin_of_children rfl rfl (List.forall_mem_singleton.mpr hcontent)
  -- index terms
  case h_9 =>
    obtain ⟨term, hterm, rfl⟩ := h
    have hterm := readWithin_of_sequenceIn? hterm
    exact Element.decodedWithin_of_children rfl rfl (List.forall_mem_singleton.mpr hterm)
  -- anything else is no phrase
  case h_10 => cases h

theorem decodedWithin_of_block? (h : block? name fields = some x) :
    x.DecodedWithin (sizeOf fields) := by
  rw [block?.eq_def] at h
  split at h
  all_goals try simp only [Option.bind_eq_bind, Option.bind_eq_some_iff, Option.pure_def,
    Option.some.injEq] at h
  -- sections
  case h_1 =>
    obtain ⟨level, -, attributes, ha, title, htitle, elements, helements, rfl⟩ := h
    have htitle := readWithin_of_sequenceIn? htitle
    have helements := readWithin_of_sequenceOrEmptyIn? helements
    exact Element.decodedWithin_of_block (decodedWithin_of_attributesIn? ha) rfl rfl
      (by simp [Element.children, htitle, helements])
  -- paragraphs
  case h_2 =>
    obtain ⟨attributes, ha, lines, hlines, rfl⟩ := h
    exact Element.decodedWithin_of_block (decodedWithin_of_attributesIn? ha) rfl rfl
      (readWithin_of_linesIn? hlines)
  -- blocks
  case h_3 =>
    obtain ⟨kind, -, attributes, ha, hblock⟩ := h
    exact decodedWithin_of_blockIn? (decodedWithin_of_attributesIn? ha) hblock
  -- image blocks
  case h_4 =>
    obtain ⟨location, hlocation, attributes, ha, rfl⟩ := h
    have hpath := readWithin_of_locationIn? hlocation
    exact Element.decodedWithin_of_block (decodedWithin_of_attributesIn? ha) rfl rfl
      (List.forall_mem_singleton.mpr hpath)
  -- list items
  case h_5 =>
    obtain ⟨attributes, ha, elements, helements, hitem⟩ := h
    exact decodedWithin_of_itemIn? (decodedWithin_of_attributesIn? ha)
      (readWithin_of_sequenceIn? helements) hitem
  -- anything else is no block
  case h_6 => cases h

end Parts

mutual

theorem decodedWithin_of_ofJson? {j : Json} {x : Element} (h : Element.ofJson? j = some x) :
    x.DecodedWithin (sizeOf j) := by
  rw [Element.ofJson?.eq_def] at h
  split at h
  · exact decodedWithin_of_bare? h
  · next name payload =>
    split at h
    · next fields =>
      have hsize : sizeOf fields + 2 < sizeOf (obj [(name, obj fields)]) := by simp; omega
      split at h
      · next hx =>
        obtain rfl := Option.some.inj h
        exact (decodedWithin_of_container? hx).mono (by omega)
      · exact decodedWithin_of_leaf? h
    · exact decodedWithin_of_leaf? h
  · cases h
termination_by sizeOf j
decreasing_by
  subst_vars
  assumption

theorem decodedWithin_of_container? {name : String} {fields : List (String × Json)} {x : Element}
    (h : container? name fields = some x) : x.DecodedWithin (sizeOf fields) := by
  rw [container?.eq_def] at h
  split at h
  -- continued elements
  case h_1 =>
    split at h
    · next j hsize _ =>
      simp only [Option.bind_eq_bind, Option.bind_eq_some_iff, Option.pure_def,
        Option.some.injEq] at h
      obtain ⟨offset, -, element, helement, rfl⟩ := h
      obtain ⟨hsorted, hparts⟩ := (decodedWithin_of_ofJson? helement).mono hsize.le
      exact ⟨hsorted, hparts⟩
    · cases h
  -- declarations
  case h_2 =>
    split at h
    · next j hsize _ =>
      simp only [Option.bind_eq_bind, Option.bind_eq_some_iff, Option.pure_def,
        Option.some.injEq] at h
      obtain ⟨name, -, value, hvalue, rfl⟩ := h
      exact ⟨by simp [Element.Sorted, Element.attributes?],
        fun s hs => (readWithin_of_value? hvalue s hs).mono hsize.le⟩
    · cases h
  -- phrases and blocks
  case h_3 =>
    rcases Option.or_eq_some_iff.mp h with h | ⟨-, h⟩
    · exact decodedWithin_of_phrase? h
    · exact decodedWithin_of_block? h
termination_by sizeOf fields + 2
decreasing_by all_goals omega

end

theorem exists_of_elements? {items : List Json} {elements : List Element}
    (h : elements? items = some elements) : ∀ x ∈ elements, ∃ j ∈ items, Element.ofJson? j = some x := by
  induction items generalizing elements with
  | nil =>
    rw [elements?] at h
    cases h
    exact List.forall_mem_nil _
  | cons j rest ih =>
    simp only [elements?, Option.bind_eq_bind, Option.bind_eq_some_iff, Option.pure_def,
      Option.some.injEq] at h
    obtain ⟨x, hx, xs, hxs, rfl⟩ := h
    refine List.forall_mem_cons.mpr ⟨⟨j, List.mem_cons_self, hx⟩, fun y hy => ?_⟩
    obtain ⟨k, hk, hy⟩ := ih hxs y hy
    exact ⟨k, List.mem_cons_of_mem _ hk, hy⟩

theorem everywhere_of_elements? {items : List Json} {elements : List Element}
    (h : elements? items = some elements) : Everywhere Element.Sorted elements := by
  induction hn : sizeOf items using Nat.strong_induction_on generalizing items elements with
  | h n ih =>
    have hdecoded (x : Element) (hx : x ∈ elements) :
        ∃ m < n, x.DecodedWithin m := by
      obtain ⟨j, hj, hx⟩ := exists_of_elements? h x hx
      exact ⟨sizeOf j, hn ▸ List.sizeOf_lt_of_mem hj, decodedWithin_of_ofJson? hx⟩
    refine .intro (fun x hx => ?_) fun x hx s hs => ?_
    · obtain ⟨m, -, hx⟩ := hdecoded x hx
      exact hx.sorted
    · obtain ⟨m, hm, hx⟩ := hdecoded x hx
      obtain ⟨inner, hinner, hsize⟩ := hx.parts s hs
      exact ih (sizeOf inner) (by omega) hinner rfl

theorem ReadWithin.everywhere {n : Nat} {s : List Element} (h : ReadWithin n s) :
    Everywhere Element.Sorted s := by
  obtain ⟨items, hitems, -⟩ := h
  exact everywhere_of_elements? hitems

theorem throughout_of_ofJson? {j : Json} {x : Element} (h : Element.ofJson? j = some x) :
    x.Throughout Element.Sorted := by
  obtain ⟨hsorted, hparts⟩ := decodedWithin_of_ofJson? h
  exact ⟨hsorted, List.forall_mem_append.mp fun s hs => (hparts s hs).everywhere⟩

theorem Dict.DecodedWithin.sorted {n : Nat} {attributes : Attributes}
    (h : attributes.DecodedWithin n) : attributes.Sorted :=
  ⟨h.ordered, fun s hs => (h.parts s hs).everywhere⟩

theorem sorted_of_frontMatter? {j : Json} {content : Attributes}
    (h : frontMatter? j = some content) : content.Sorted := by
  simp only [frontMatter?, withDefault_eq, Option.bind_eq_bind, Option.bind_eq_some_iff] at h
  obtain ⟨fields, -, found, -, h⟩ := h
  cases found with
  | none =>
    cases h
    exact ⟨Dict.ordered_empty, List.forall_mem_nil _⟩
  | some j => exact (decodedWithin_of_attributes? h).sorted

theorem sorted_of_ofJson? {j : Json} {document : Document} (h : Document.ofJson? j = some document) :
    document.Sorted := by
  simp only [Document.ofJson?, withDefault_eq, Option.bind_eq_bind, Option.bind_eq_some_iff,
    Option.pure_def, Option.some.injEq] at h
  obtain ⟨fields, -, frontMatter, hfront, elements, ⟨found, -, helements⟩, rfl⟩ := h
  refine ⟨fun content hcontent => ?_, ?_⟩
  · obtain ⟨j, hj⟩ := exists_of_optional hfront hcontent
    exact sorted_of_frontMatter? hj
  · cases found with
    | none =>
      cases helements
      exact everywhere_nil
    | some j =>
      rw [Option.elim_some, sequence?.eq_def] at helements
      split at helements
      · exact everywhere_of_elements? helements
      · cases helements

/-- Reading is a left inverse of writing, on exactly the values that can be read. So no two of these are
written alike, and what was read is written so that it reads the same again. -/
structure Faithful {α : Type} (write : α → Json) (read : Json → Option α) (valid : α → Prop) :
    Prop where
  read_write : ∀ a, valid a → read (write a) = some a
  injective : ∀ a b, valid a → valid b → write a = write b → a = b
  valid_iff_read : ∀ a, valid a ↔ ∃ j, read j = some a
  stable : ∀ j a, read j = some a → read (write a) = some a

theorem Faithful.of_read_write {α : Type} {write : α → Json} {read : Json → Option α}
    {valid : α → Prop} (hwrite : ∀ a, valid a → read (write a) = some a)
    (hvalid : ∀ j a, read j = some a → valid a) : Faithful write read valid where
  read_write := hwrite
  injective a b ha hb hab := by
    have h : some a = some b := by rw [← hwrite a ha, hab, hwrite b hb]
    exact Option.some.inj h
  valid_iff_read a := ⟨fun ha => ⟨write a, hwrite a ha⟩, fun ⟨j, hj⟩ => hvalid j a hj⟩
  stable j a h := hwrite a (hvalid j a h)

/-- Elements and documents are written faithfully, whatever their variants, fields and values are, as
long as every dictionary in them is in the order of its names. -/
theorem encoding_faithful :
    Faithful Element.toJson Element.ofJson? (Element.Throughout Element.Sorted) ∧
      Faithful Document.toJson Document.ofJson? Document.Sorted :=
  ⟨.of_read_write (fun _ => Element.ofJson?_toJson_of_throughout) fun _ _ => throughout_of_ofJson?,
    .of_read_write (fun _ => Document.ofJson?_toJson) fun _ _ => sorted_of_ofJson?⟩

theorem encoding_faithful_nested :
    let element := Element.continued 1 (.paragraph
      ⟨[("a", .elements [.icon "b" ⟨[("role", .roles ["c"])]⟩]), ("d", .nil)]⟩ [[.lineBreak], []])
    Element.ofJson? element.toJson = some element := by
  refine encoding_faithful.1.read_write _ ?_
  have hpair {v w : Value} : Dict.Ordered ⟨[("a", v), ("d", w)]⟩ :=
    show ["a", "d"].Pairwise (· < ·) by decide
  have hsingle {v : Value} : Dict.Ordered ⟨[("role", v)]⟩ := List.pairwise_singleton _ _
  simp [Element.Throughout, Element.Sorted, Element.attributes?, Element.children, Element.held,
    hpair, hsingle, sequencesOf, everywhere_cons, everywhere_nil]

end Manuscript

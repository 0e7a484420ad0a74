import Manuscript.Proofs.Dict
import Manuscript.Proofs.Everywhere
import Manuscript.Proofs.Markup.Mapping
import Manuscript.Proofs.Placeholder.Conservation

namespace Manuscript

open Glyph Reader Pending

namespace Macro

mutual

def settle : Element → Element
  | .link location attributes => .link location (Dict.ofList attributes.entries)
  | .footnote reference content => .footnote reference (settleAll content)
  | element => element

def settleAll : List Element → List Element
  | [] => []
  | element :: rest => settle element :: settleAll rest

end

mutual

def replaced : Element → List UInt32
  | .link _ attributes => (sequencesOf (Dict.replaced attributes.entries)).flatMap references
  | .footnote _ content => replacedAll content
  | _ => []

def replacedAll : List Element → List UInt32
  | [] => []
  | element :: rest => replaced element ++ replacedAll rest

end

theorem settleAll_eq_map (elements : List Element) : settleAll elements = elements.map settle := by
  induction elements with
  | nil => rfl
  | cons element rest ih => rw [settleAll, ih, List.map_cons]

theorem sequencesOf_ofList_perm (entries : List (String × Value)) :
    (sequencesOf (Dict.ofList entries).entries ++ sequencesOf (Dict.replaced entries)).Perm
      (sequencesOf entries) := by
  simp only [sequencesOf_eq_flatMap]
  rw [← List.flatMap_append]
  exact (Dict.ofList_append_replaced_perm entries).flatMap_right _

theorem references_settleAll_perm (elements : List Element) :
    (references (settleAll elements) ++ replacedAll elements).Perm (references elements) := by
  refine settleAll.induct
    (fun element => (references [settle element] ++ replaced element).Perm (references [element]))
    (fun elements =>
      (references (settleAll elements) ++ replacedAll elements).Perm (references elements))
    ?_ ?_ ?_ ?_ ?_ elements
  · intro location attributes
    have hperm := (sequencesOf_ofList_perm attributes.entries).flatMap_right references
    rw [List.flatMap_append] at hperm
    rw [settle, replaced, references_of_children rfl, references_of_children rfl,
      Element.children, Element.children, List.flatMap_cons, List.flatMap_cons, List.append_assoc]
    exact hperm.append_left _
  · intro reference content ih
    rw [settle, replaced, references_of_children rfl, references_of_children rfl,
      Element.children, Element.children, List.flatMap_singleton, List.flatMap_singleton]
    exact ih
  · intro element hlink hfootnote
    rw [settle.eq_3 element hlink hfootnote, replaced.eq_3 element hlink hfootnote,
      List.append_nil]
  · rw [settleAll, replacedAll, List.append_nil]
  · intro element rest hfirst hrest
    have hsplit (x : Element) (xs : List Element) :
        references (x :: xs) = references [x] ++ references xs := references_append [x] xs
    rw [settleAll, replacedAll, hsplit, hsplit element]
    have hswap : (references [settle element] ++ references (settleAll rest) ++
        (replaced element ++ replacedAll rest)).Perm
          (references [settle element] ++ replaced element ++
            (references (settleAll rest) ++ replacedAll rest)) := by
      simp only [List.append_assoc]
      exact (List.perm_append_comm_assoc ..).append_left _
    exact hswap.trans (hfirst.append hrest)

def written (options : Options) (text : String) : List Element :=
  Fragment.read (Construct.single (any Dict.mk options)) (scan text.toList)

theorem references_written {options : Options} {lines : List Line}
    (clean : ∀ line ∈ lines, Unforged line) :
    references (written options (serialized lines)) = numbers 1 (setAside lines).length := by
  rw [written, (Fragment.spells_read (Construct.yields_single yields_any) _).references_eq,
    tokens_scan_serialized clean]

theorem map_settle_bareLink : settle <$> bareLink Dict.mk = bareLink Dict.ofList := by
  simp only [bareLink, map_bind, map_pure]
  rfl

theorem map_settle_link : settle <$> link Dict.mk = link Dict.ofList := by
  simp only [link, map_bind, map_pure]
  rfl

theorem map_settle_token : settle <$> token = token := by
  refine ext_run fun glyphs => ?_
  rw [run_map]
  rcases glyphs with - | ⟨- | -, -⟩ <;> rfl

theorem map_settle_noteText : settle <$> noteText = noteText := by
  simp only [noteText, map_bind, map_pure]
  rfl

theorem map_settle_image {options : Options} : settle <$> image options = image options := by
  simp only [image, map_bind, map_pure]
  rfl

theorem map_settle_documentReference : settle <$> documentReference = documentReference := by
  simp only [documentReference, map_bind, map_pure]
  rfl

theorem map_settle_crossReference :
    settle <$> Construct.crossReference = Construct.crossReference := by
  simp only [Construct.crossReference, map_bind, map_pure]
  rfl

theorem map_settle_indexTerm : settle <$> indexTerm = indexTerm := by
  simp only [indexTerm, map_bind, map_pure]
  rfl

theorem map_settle_hiddenIndexTerm : settle <$> hiddenIndexTerm = hiddenIndexTerm := by
  simp only [hiddenIndexTerm, map_bind, map_pure]
  rfl

theorem map_settle_icon : settle <$> icon = icon := by
  simp only [icon, map_bind, map_pure]
  rfl

theorem settle_text (s : String) : settle (.text s) = .text s := rfl

theorem eq_text_of_settle (element : Element) (s : String) (h : settle element = .text s) :
    element = .text s := by
  fun_cases settle element with
  | case1 => cases h
  | case2 => cases h
  | case3 _ hlink hfootnote => rwa [settle.eq_3 element hlink hfootnote] at h

theorem map_settleAll_noteContent :
    settleAll <$> noteContent Dict.mk = noteContent Dict.ofList := by
  have hitem : settle <$> firstOf [token, bareLink Dict.mk, noteText] =
      firstOf [token, bareLink Dict.ofList, noteText] := by
    simp only [map_firstOf, List.map_cons, List.map_nil, map_settle_token, map_settle_bareLink,
      map_settle_noteText]
  have hmerge (xs : List Element) : settleAll (merge xs) = merge (xs.map settle) := by
    rw [settleAll_eq_map, map_merge settle_text eq_text_of_settle]
  simp only [noteContent, ← hitem, map_many, map_bind, map_pure, hmerge, bind_map_left]

theorem map_settle_footnote : settle <$> footnote Dict.mk = footnote Dict.ofList := by
  simp only [footnote, ← map_settleAll_noteContent, map_bind, map_pure, settle, bind_map_left]

theorem map_settle_any (options : Options) :
    settle <$> any Dict.mk options = any Dict.ofList options := by
  simp only [any, map_firstOf, List.map_cons, List.map_nil, map_settle_image, map_settle_link,
    map_settle_bareLink, map_settle_documentReference, map_settle_crossReference,
    map_settle_footnote, map_settle_hiddenIndexTerm, map_settle_indexTerm, map_settle_icon]

theorem read_macros (options : Options) (text : String) :
    Fragment.read (Fragment.construct options .macros) (scan text.toList) =
      settleAll (written options text) := by
  rw [Fragment.construct, ← map_settle_any, map_single,
    Fragment.read_map settle_text fun _ => rfl, settleAll_eq_map]
  rfl

def lost (options : Options) (text : String) : List UInt32 :=
  replacedAll (written options text)

end Macro

mutual

def Element.Sealed : Element → Prop
  | .quoted _ _ content => AllSealed content
  | .quotation _ content => AllSealed content
  | _ => True

def AllSealed : List Element → Prop
  | [] => True
  | .text s :: rest => reservedChar ∉ s.toList ∧ AllSealed rest
  | element :: rest => element.Sealed ∧ AllSealed rest

end

theorem parsePayload_of_sealed {parse : String → Except Fault (List Element)}
    (h : ∀ s, reservedChar ∉ s.toList → ∃ parsed, parse s = .ok parsed) (element : Element) :
    element.Sealed → ∃ parsed, parsePayload parse element = .ok parsed := by
  refine parsePayload.induct
    (fun element => element.Sealed → ∃ parsed, parsePayload parse element = .ok parsed)
    (fun content => AllSealed content → ∃ parsed, parseFragments parse content = .ok parsed)
    ?_ ?_ ?_ ?_ ?_ ?_ element
  · intro style attributes content ih hsealed
    obtain ⟨parsed, hparsed⟩ := ih hsealed
    exact ⟨_, by rw [parsePayload, hparsed]; rfl⟩
  · intro mark content ih hsealed
    obtain ⟨parsed, hparsed⟩ := ih hsealed
    exact ⟨_, by rw [parsePayload, hparsed]; rfl⟩
  · intro element hquoted hquotation _
    exact ⟨element, parsePayload.eq_3 _ _ hquoted hquotation⟩
  · intro _
    exact ⟨[], by rw [parseFragments]; rfl⟩
  · intro s rest ih hsealed
    obtain ⟨hs, hrest⟩ := hsealed
    obtain ⟨parsed, hparsed⟩ := h s hs
    obtain ⟨others, hothers⟩ := ih hrest
    exact ⟨_, by rw [parseFragments, hparsed, hothers]; rfl⟩
  · intro element rest hnot ih ihrest hsealed
    rw [AllSealed.eq_3 _ _ hnot] at hsealed
    obtain ⟨parsed, hparsed⟩ := ih hsealed.1
    obtain ⟨others, hothers⟩ := ihrest hsealed.2
    exact ⟨_, by rw [parseFragments.eq_3 _ _ _ hnot, hparsed, hothers]; rfl⟩

namespace Macro

section Link

variable {g₁ g₂ g₃ g₄ : List Glyph} {entries : List (String × Value)}

theorem run_textAndNamed {text : List Element} {first : String × Value}
    (htext : (linkText fun c => c == ',' || c == ']').run g₁ = some (text, g₂))
    (hnamed : (next namedArgument).run g₂ = some (first, g₃))
    (hend : (next namedArgument).run g₃ = none) :
    textAndNamed.run g₁ = some ([(linkTextName, .elements text), first], g₃) := by
  simp only [textAndNamed, run_bind, htext, hnamed, run_many_of_none hend, Option.bind_some,
    run_pure]

theorem run_linkArguments
    (h : (firstOf [onlyNamed, textAndNamed, onlyText]).run g₁ =
      some (entries, .char ']' :: g₂)) :
    linkArguments.run (.char '[' :: g₁) = some (entries, g₂) := by
  have hopen : (literal "[").run (.char '[' :: g₁) = some ((), g₁) := rfl
  have hclose : (literal "]").run (.char ']' :: g₂) = some ((), g₂) := rfl
  simp only [linkArguments, run_bind, hopen, run_optional_of_some h, hclose, Option.bind_some,
    run_pure, Option.getD_some]

theorem run_bareLink {keep : Keep} {scheme : String} {path : List Element}
    (hscheme : linkScheme.run g₁ = some (scheme, g₂)) (hpath : linkPath.run g₂ = some (path, g₃))
    (hargs : linkArguments.run g₃ = some (entries, g₄)) :
    (bareLink keep).run g₁ = some (.link ⟨scheme, path⟩ (keep entries), g₄) := by
  simp only [bareLink, run_bind, hscheme, hpath, run_optional_of_some hargs, Option.bind_some,
    run_pure, Option.getD_some]

theorem written_link {text key : String} {rest : List Glyph}
    (hscan : scan text.toList = spell "https://a[" ++ (.token ['1'] :: .char ',' :: rest))
    (hnamed : (next namedArgument).run (.char ',' :: rest) =
      some ((key, .string "c"), [.char ']'])) :
    written ⟨none⟩ text = [.link ⟨"https://", [.text "a"]⟩
      ⟨[(linkTextName, .elements [.placeholder 1]), (key, .string "c")]⟩] := by
  have hlabel : (linkText fun c => c == ',' || c == ']').run
      (.token ['1'] :: .char ',' :: rest) = some ([.placeholder 1], .char ',' :: rest) := rfl
  have honly : onlyNamed.run (.token ['1'] :: .char ',' :: rest) = none := rfl
  have harguments : (firstOf [onlyNamed, textAndNamed, onlyText]).run
      (.token ['1'] :: .char ',' :: rest) =
        some ([(linkTextName, .elements [.placeholder 1]), (key, .string "c")], [.char ']']) := by
    rw [run_firstOf_cons, honly, run_firstOf_cons, run_textAndNamed hlabel hnamed rfl]
    rfl
  have hbare : (bareLink Dict.mk).run
      (spell "https://a[" ++ (.token ['1'] :: .char ',' :: rest)) =
        some (.link ⟨"https://", [.text "a"]⟩
          ⟨[(linkTextName, .elements [.placeholder 1]), (key, .string "c")]⟩, []) :=
    run_bareLink rfl rfl (run_linkArguments harguments)
  have hany : (Construct.single (any Dict.mk ⟨none⟩)).run
      (.char 'h' :: (spell "ttps://a[" ++ (.token ['1'] :: .char ',' :: rest))) =
        some ([.link ⟨"https://", [.text "a"]⟩
          ⟨[(linkTextName, .elements [.placeholder 1]), (key, .string "c")]⟩], []) := by
    have himage : (image ⟨none⟩).run
        (spell "https://a[" ++ (.token ['1'] :: .char ',' :: rest)) = none := rfl
    have hlink : (link Dict.mk).run
        (spell "https://a[" ++ (.token ['1'] :: .char ',' :: rest)) = none := rfl
    have hfirst : (any Dict.mk ⟨none⟩).run
        (spell "https://a[" ++ (.token ['1'] :: .char ',' :: rest)) =
          some (.link ⟨"https://", [.text "a"]⟩
            ⟨[(linkTextName, .elements [.placeholder 1]), (key, .string "c")]⟩, []) := by
      rw [any, run_firstOf_cons, himage, run_firstOf_cons, hlink, run_firstOf_cons, hbare]
      rfl
    exact congrArg (Option.bind · _) hfirst
  rw [written, hscan]
  refine (Fragment.read_of_run hany (by simp)).trans ?_
  rw [Fragment.read, List.append_nil]

end Link

end Macro

namespace Pass

variable {options : Options} {lines : List Line}

theorem parse_macros_serialized (clean : ∀ line ∈ lines, Unforged line) :
    Fragment.parse .macros options (serialized lines) =
      .ok (merge (Macro.settleAll (Macro.written options (serialized lines)))) := by
  rw [← Macro.read_macros]
  exact Fragment.parse_serialized (by decide) (by decide) clean options

theorem exactlyOnce_iff_lost (few : (setAside lines).length < UInt32.size)
    (clean : ∀ line ∈ lines, Unforged line) :
    ExactlyOnce (setAside lines).length
        (merge (Macro.settleAll (Macro.written options (serialized lines)))) ↔
      Macro.lost options (serialized lines) = [] := by
  have hperm := Macro.references_settleAll_perm (Macro.written options (serialized lines))
  rw [Macro.references_written clean] at hperm
  have hnumbers : (numbers 1 (setAside lines).length).map UInt32.toNat =
      List.range' 1 (setAside lines).length := map_toNat_numbers (by omega)
  rw [ExactlyOnce, references_merge, ← hnumbers, Macro.lost]
  constructor
  · intro honce
    have hlength := (hperm.map UInt32.toNat).length_eq
    rw [← honce.length_eq, List.map_append, List.length_append] at hlength
    exact List.length_eq_zero_iff.mp (by simpa using hlength)
  · intro hlost
    rw [hlost, List.append_nil] at hperm
    exact hperm.map _

theorem exists_payloads (quotesClean : ∀ element ∈ setAside lines, element.Sealed) :
    ∃ payloads, (setAside lines).mapM (parsePayload (Fragment.parse .macros options)) =
      .ok payloads :=
  mapM_ok_of_forall fun element he =>
    parsePayload_of_sealed
      (fun _ hs => ⟨_, Fragment.parse_of_clean (by decide) (by decide) hs options⟩) element
      (quotesClean element he)

theorem reread_macros_error_of_lost (few : (setAside lines).length < UInt32.size)
    (clean : ∀ line ∈ lines, Unforged line)
    (quotesClean : ∀ element ∈ setAside lines, element.Sealed)
    (hlost : Macro.lost options (serialized lines) ≠ []) :
    ∃ fault, reread Fragment.parse .macros options lines = .error fault ∧
      fault.kind = .placeholder := by
  obtain ⟨payloads, hp⟩ := exists_payloads quotesClean
  exact reread_eq_error few hp (parse_macros_serialized clean) fun honce =>
    hlost ((exactlyOnce_iff_lost few clean).mp honce)

def boldLink (named : String) : List Line :=
  [[.text "https://a[", .quoted .bold ∅ [.text "b"], .text named]]

theorem few_boldLink (named : String) : (setAside (boldLink named)).length < UInt32.size := by
  have h : setAside (boldLink named) = [.quoted .bold ∅ [.text "b"]] := rfl
  rw [h]
  decide

theorem unforged_boldLink {named : String} (h : reservedChar ∉ named.toList) :
    ∀ line ∈ boldLink named, Unforged line := by
  intro line hline s hs
  obtain rfl := List.mem_singleton.mp hline
  simp only [List.mem_cons, List.not_mem_nil, or_false, Element.text.injEq, reduceCtorEq,
    false_or] at hs
  rcases hs with rfl | rfl
  · decide
  · exact h

theorem sealed_boldLink (named : String) :
    ∀ element ∈ setAside (boldLink named), element.Sealed := by
  have h : setAside (boldLink named) = [.quoted .bold ∅ [.text "b"]] := rfl
  rw [h]
  exact List.forall_mem_singleton.mpr ⟨by decide, trivial⟩

theorem scan_boldLink {named : String} (h : Clean named) :
    scan (serialized (boldLink named)).toList =
      spell "https://a[" ++ (.token ['1'] :: spell named) := by
  rw [scan_serialized (unforged_boldLink h)]
  change _ ++ (_ :: (spell named ++ [])) = _
  rw [List.append_nil]
  rfl

theorem lost_overwritten :
    Macro.lost ⟨none⟩ (serialized (boldLink ",positional-1=c]")) = [1] := by
  have hnamed : (Macro.next Macro.namedArgument).run (.char ',' :: spell "positional-1=c]") =
      some (("positional-1", .string "c"), [.char ']']) := rfl
  rw [Macro.lost, Macro.written_link (scan_boldLink (by decide)) hnamed]
  simp [Macro.replacedAll, Macro.replaced, Dict.replaced, Macro.linkTextName, sequencesOf,
    references_cons, placeholder?]

theorem lost_kept : Macro.lost ⟨none⟩ (serialized (boldLink ",role=c]")) = [] := by
  have hnamed : (Macro.next Macro.namedArgument).run (.char ',' :: spell "role=c]") =
      some (("role", .string "c"), [.char ']']) := rfl
  rw [Macro.lost, Macro.written_link (scan_boldLink (by decide)) hnamed]
  simp [Macro.replacedAll, Macro.replaced, Dict.replaced, Macro.linkTextName, sequencesOf]

/-- The macro step succeeds just if it loses nothing. -/
theorem reread_macros_ok_iff_lost (options : Options) {lines : List Line}
    (few : (setAside lines).length < UInt32.size) (clean : ∀ line ∈ lines, Unforged line)
    (quotesClean : ∀ element ∈ setAside lines, element.Sealed) :
    (∃ parsed, Fragment.parse .macros options (serialized lines) = .ok parsed ∧
      (ExactlyOnce (setAside lines).length parsed ↔
        Macro.lost options (serialized lines) = [])) ∧
    ((∃ line, reread Fragment.parse .macros options lines = .ok line) ↔
      Macro.lost options (serialized lines) = []) ∧
    (Macro.lost options (serialized lines) ≠ [] →
      ∃ fault, reread Fragment.parse .macros options lines = .error fault ∧
        fault.kind = .placeholder) := by
  have hiff : ExactlyOnce _ _ ↔ Macro.lost options (serialized lines) = [] :=
    exactlyOnce_iff_lost few clean
  have hparse : Fragment.parse .macros options (serialized lines) = .ok _ :=
    parse_macros_serialized clean
  refine ⟨⟨_, hparse, hiff⟩, ⟨?_, fun hlost => ?_⟩,
    reread_macros_error_of_lost few clean quotesClean⟩
  · rintro ⟨line, hline⟩
    by_contra hlost
    obtain ⟨fault, hfault, -⟩ := reread_macros_error_of_lost few clean quotesClean hlost
    rw [hfault] at hline
    cases hline
  · obtain ⟨payloads, hp⟩ := exists_payloads quotesClean
    exact ⟨_, reread_eq_ok few hp hparse (hiff.mpr hlost)⟩

theorem reread_macros_ok_with_role :
    ∃ line, reread Fragment.parse .macros ⟨none⟩ (boldLink ",role=c]") = .ok line :=
  (reread_macros_ok_iff_lost ⟨none⟩ (few_boldLink _) (unforged_boldLink (by decide))
    (sealed_boldLink _)).2.1.mpr lost_kept

theorem reread_macros_error_with_overwritten_text :
    (∀ line ∈ boldLink ",positional-1=c]", Unforged line) ∧
    (∀ element ∈ setAside (boldLink ",positional-1=c]"), element.Sealed) ∧
    ∃ fault, reread Fragment.parse .macros ⟨none⟩ (boldLink ",positional-1=c]") =
      .error fault ∧ fault.kind = .placeholder := by
  have clean : ∀ line ∈ boldLink ",positional-1=c]", Unforged line := unforged_boldLink (by decide)
  refine ⟨clean, sealed_boldLink _,
    reread_macros_error_of_lost (few_boldLink _) clean (sealed_boldLink _) fun hlost => ?_⟩
  rw [lost_overwritten] at hlost
  cases hlost

end Pass

end Manuscript

import Manuscript.Proofs.Captions.Basic

namespace Manuscript

open Glyph Pending

section Serialized

theorem setAside_captioned (lines : List Line) :
    setAside (lines.map captioned) = (setAside lines).map Element.captioned := by
  have hmap : captioned = List.map Element.captioned := funext captioned_eq_map
  rw [setAside, setAside, hmap, ← List.map_flatten, List.filter_map]
  refine congrArg (List.map _) (List.filter_congr fun x _ => ?_)
  rw [Function.comp, x.isText_captioned]

theorem countAside_captioned (line : Line) : countAside (captioned line) = countAside line := by
  have h := setAside_captioned [line]
  rw [List.map_singleton, setAside, setAside, List.flatten_singleton, List.flatten_singleton] at h
  rw [countAside, h, List.length_map, countAside]

theorem lineGlyphs_captioned (k : Nat) (line : Line) :
    lineGlyphs k (captioned line) = lineGlyphs k line := by
  fun_induction lineGlyphs k line with
  | case1 k => rw [captioned_nil, lineGlyphs]
  | case2 k s rest ih => rw [captioned_cons, Element.captioned_text, lineGlyphs, ih]
  | case3 k x rest hne ih =>
    have htext : x.captioned.isText = false := x.isText_captioned.trans (not_isText_of_ne hne)
    rw [captioned_cons, lineGlyphs.eq_3 _ _ _ (ne_text_of_not_isText htext), ih]

theorem mapM_writeLine_captioned {pending pending' : Pending} {k : Nat}
    (h : pending.last = UInt32.ofNat k) (h' : pending'.last = UInt32.ofNat k) (lines : List Line) :
    (((lines.map captioned).mapM writeLine).run pending).1 =
      ((lines.mapM writeLine).run pending').1 := by
  have hcons (line : Line) (lines : List Line) (pending : Pending) :
      ((List.mapM writeLine (line :: lines)).run pending).1 = ((writeLine line).run pending).1 ::
        ((lines.mapM writeLine).run ((writeLine line).run pending).2).1 := by
    rw [List.mapM_cons]
    rfl
  have hlast (line : Line) {pending : Pending} {k : Nat} (h : pending.last = UInt32.ofNat k) :
      ((writeLine line).run pending).2.last = UInt32.ofNat (k + countAside line) := by
    rw [writeLine_snd]
    exact last_registerAll h
  induction lines generalizing pending pending' k with
  | nil => rfl
  | cons line rest ih =>
    have hline : ((writeLine (captioned line)).run pending).1 = ((writeLine line).run pending').1 := by
      refine String.toList_inj.mp ?_
      rw [toList_writeLine h, toList_writeLine h', lineGlyphs_captioned]
    have hrest := hlast (captioned line) h
    rw [countAside_captioned] at hrest
    rw [List.map_cons, hcons, hcons, hline, ih hrest (hlast line h')]

theorem serialized_captioned (lines : List Line) :
    serialized (lines.map captioned) = serialized lines :=
  congrArg ("\n".intercalate ·) (mapM_writeLine_captioned (k := 0) rfl rfl lines)

end Serialized

section Payload

variable {parse parse' : String → Except Fault (List Element)}

theorem Element.eq_quoted_of_captioned {x : Element} {style : Style} {attributes : Attributes}
    {content : List Element} (h : x.captioned = .quoted style attributes content) :
    ∃ attributes' content', x = .quoted style attributes' content' := by
  cases x with
  | quoted => cases h; exact ⟨_, _, rfl⟩
  | image =>
    rw [captioned, children, List.map_cons, withChildren, caption] at h
    split at h <;> cases h
  | _ => cases h

theorem Element.eq_quotation_of_captioned {x : Element} {mark : QuoteMark} {content : List Element}
    (h : x.captioned = .quotation mark content) : ∃ content', x = .quotation mark content' := by
  cases x with
  | quotation => cases h; exact ⟨_, rfl⟩
  | image =>
    rw [captioned, children, List.map_cons, withChildren, caption] at h
    split at h <;> cases h
  | _ => cases h

theorem parsePayload_captioned (hparse : ∀ s, parse s = (parse' s).map captioned) (x : Element) :
    parsePayload parse x.captioned = (parsePayload parse' x).map Element.captioned := by
  refine parsePayload.induct
    (fun x => parsePayload parse x.captioned = (parsePayload parse' x).map Element.captioned)
    (fun content => parseFragments parse (captioned content) =
      (parseFragments parse' content).map captioned)
    ?quoted ?quotation ?other ?nil ?text ?cons x
  case quoted =>
    intro style attributes content ih
    change parsePayload parse (.quoted style _ (captioned content)) = _
    rw [parsePayload, parsePayload, ih]
    cases parseFragments parse' content with
    | error fault => rfl
    | ok fragments =>
      change Except.ok (Element.quoted style _ (merge (captioned fragments))) = _
      rw [← captioned_merge]
      rfl
  case quotation =>
    intro mark content ih
    change parsePayload parse (.quotation mark (captioned content)) = _
    rw [parsePayload, parsePayload, ih]
    cases parseFragments parse' content with
    | error fault => rfl
    | ok fragments =>
      change Except.ok (Element.quotation mark (merge (captioned fragments))) = _
      rw [← captioned_merge]
      rfl
  case other =>
    intro x hquoted hquotation
    rw [parsePayload.eq_3 _ _ hquoted hquotation, parsePayload.eq_3]
    · rfl
    · intro style attributes content h
      obtain ⟨attributes', content', rfl⟩ := Element.eq_quoted_of_captioned h
      exact hquoted _ _ _ rfl
    · intro mark content h
      obtain ⟨content', rfl⟩ := Element.eq_quotation_of_captioned h
      exact hquotation _ _ rfl
  case nil =>
    rw [captioned_nil, parseFragments, parseFragments]
    exact congrArg Except.ok captioned_nil.symm
  case text =>
    intro s rest ih
    rw [captioned_cons, Element.captioned_text, parseFragments, parseFragments, hparse, ih]
    cases parse' s with
    | error fault => rfl
    | ok parsed =>
      cases parseFragments parse' rest with
      | error fault => rfl
      | ok others => exact congrArg Except.ok (captioned_append parsed others).symm
  case cons =>
    intro x rest hnot ih ihrest
    have htext : x.captioned.isText = false := x.isText_captioned.trans (not_isText_of_ne hnot)
    rw [captioned_cons, parseFragments.eq_3 _ _ _ (ne_text_of_not_isText htext),
      parseFragments.eq_3 _ _ _ hnot, ih, ihrest]
    cases parsePayload parse' x with
    | error fault => rfl
    | ok payload =>
      cases parseFragments parse' rest with
      | error fault => rfl
      | ok others => exact congrArg Except.ok (captioned_cons payload others).symm

theorem mapM_map_eq_ok {α β γ : Type} {f : α → Except Fault β} {g : β → γ} {as : List α}
    {cs : List γ} (h : as.mapM (fun a => (f a).map g) = .ok cs) :
    ∃ bs, as.mapM f = .ok bs ∧ cs = bs.map g := by
  have hpairs := mapM_eq_ok_iff.mp h
  clear h
  induction hpairs with
  | nil => exact ⟨[], rfl, rfl⟩
  | @cons a c as cs hac hrest ih =>
    obtain ⟨bs, hbs, rfl⟩ := ih
    cases hf : f a with
    | error fault => rw [hf] at hac; cases hac
    | ok b =>
      rw [hf] at hac
      obtain rfl : g b = c := Except.ok.inj hac
      exact ⟨b :: bs, by rw [List.mapM_cons, hf, hbs]; rfl, rfl⟩

theorem original_captioned (payloads : List Element) (reference : UInt32) :
    (handedOut (payloads.map Element.captioned)).original reference =
      ((handedOut payloads).original reference).captioned := by
  have hlookup (keys : List UInt32) (xs : List Element) :
      (keys.zip (xs.map Element.captioned)).lookup reference =
        ((keys.zip xs).lookup reference).map Element.captioned := by
    induction keys generalizing xs with
    | nil => rfl
    | cons key keys ih =>
      cases xs with
      | nil => rfl
      | cons x xs =>
        rw [List.map_cons, List.zip_cons_cons, List.zip_cons_cons, List.lookup_cons, List.lookup_cons,
          ih]
        split <;> rfl
  rw [original, original, handedOut, handedOut, List.length_map, hlookup]
  cases ((numbers 1 payloads.length).zip payloads).lookup reference <;> rfl

end Payload

namespace Pass

variable {grammar grammar' : Grammar} {rule : Rule} {options : Options} {lines : List Line}
  {line : Line} {payloads parsed : List Element}

theorem reread_eq_ok_iff
    (hp : (setAside lines).mapM (parsePayload (grammar rule options)) = .ok payloads)
    (hg : grammar rule options (serialized lines) = .ok parsed) :
    reread grammar rule options lines = .ok line ↔
      ((references parsed).Nodup ∧
        (∀ reference ∈ references parsed, reference ∈ numbers 1 payloads.length) ∧
        ∀ reference ∈ numbers 1 payloads.length, reference ∈ references parsed) ∧
      line = merge (putBack (handedOut payloads).original parsed) := by
  rw [reread_eq hp hg, ← keys_handedOut]
  by_cases hknown : (references parsed).Nodup ∧
      ∀ reference ∈ references parsed, reference ∈ (handedOut payloads).keys
  · rw [runFrom_restore hknown.1 hknown.2]
    by_cases hcomplete : ∀ key ∈ (handedOut payloads).keys, key ∈ references parsed
    · change (Except.map _ _ = _) ↔ _
      rw [finish_without hcomplete, and_iff_right ⟨hknown.1, hknown.2, hcomplete⟩]
      exact ⟨fun h => (Except.ok.inj h).symm, fun h => congrArg Except.ok h.symm⟩
    · obtain ⟨left, hfinish⟩ := finish_without_error hcomplete
      change (Except.map _ _ = _) ↔ _
      rw [hfinish]
      exact iff_of_false nofun fun h => hcomplete h.1.2.2
  · obtain ⟨reference, pending, hrestore⟩ := runFrom_restore_error hknown
    rw [hrestore]
    exact iff_of_false nofun fun h => hknown ⟨h.1.1, h.1.2.1⟩

theorem exists_reread_of_captioned
    (hgrammar : ∀ text, grammar rule options text = (grammar' rule options text).map captioned)
    (h : reread grammar rule options (lines.map captioned) = .ok line) :
    ∃ bare, reread grammar' rule options lines = .ok bare ∧ line = captioned bare := by
  obtain ⟨payloads, hpayloads⟩ := exists_payloads_of_reread h
  obtain ⟨parsed, hparsed⟩ := exists_parsed_of_reread h hpayloads
  obtain ⟨hfound, rfl⟩ := (reread_eq_ok_iff hpayloads hparsed).mp h
  rw [setAside_captioned, List.mapM_map] at hpayloads
  simp only [Function.comp_def, parsePayload_captioned hgrammar] at hpayloads
  obtain ⟨payloads, hpayloads', rfl⟩ := mapM_map_eq_ok hpayloads
  rw [serialized_captioned, hgrammar] at hparsed
  cases hparsed' : grammar' rule options (serialized lines) with
  | error fault => rw [hparsed'] at hparsed; cases hparsed
  | ok parsed' =>
    rw [hparsed'] at hparsed
    obtain rfl : captioned parsed' = parsed := Except.ok.inj hparsed
    rw [references_captioned, List.length_map] at hfound
    refine ⟨_, (reread_eq_ok_iff hpayloads' hparsed').mpr ⟨hfound, rfl⟩, ?_⟩
    rw [captioned_merge, captioned_putBack (isText_original hpayloads'),
      funext (original_captioned payloads)]

end Pass

end Manuscript

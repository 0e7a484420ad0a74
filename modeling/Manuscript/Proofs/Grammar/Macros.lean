import Manuscript.Proofs.Grammar.Contents

namespace Manuscript.Peg

open Peg.Expr Glyph Reader

variable {n : Nat} {options : Options} {name : Name} {e : Expression} {stop : List Glyph → Bool}

def ContentPair (name : Name) (options : Options) (n : Nat) (t : List Glyph) (ps : List Tree)
    (xs : List Element) : Prop :=
  ∃ inner, ps = [.node name n (t.flatMap chars) inner] ∧ Gives options n t inner xs

theorem reads_content {text : Name} (hname : grammar name = .compound (withPlaceholders text))
    (htext : grammar text = .atomic (plus (except e)))
    (hbuild : ∀ n cs, build options (.node text n cs []) = .ok [.text (String.ofList cs)])
    (h : Tests e (textEnd stop)) (htoken : ∀ digits rest, stop (.token digits :: rest) = false) :
    Reads n (call name) (do return content (← someUpTo stop))
      fun t ps xs => t ≠ [] ∧ ContentPair name options n t ps xs :=
  .compound hname ((reads_withPlaceholders htext hbuild h htoken).mono
    fun _ inner _ ⟨hne, hgives⟩ => ⟨hne, inner, rfl, hgives⟩)

theorem textEnd_heads (ps : List (Char → Bool)) (glyphs : List Glyph) :
    (atReserved glyphs || headIs (fun c => ps.any (· c)) glyphs) =
      textEnd (headIs fun c => isReserved c || ps.any (· c)) glyphs := by
  rw [textEnd, ← headIs_or, atReserved, Bool.or_assoc]

theorem tests_contentEnd {es : List Expression} {ps : List (Char → Bool)}
    (h : List.Forall₂ (fun e p => Tests e (headIs p)) es ps) :
    Tests (choose (es ++ [reserved])) (textEnd (headIs fun c => isReserved c || ps.any (· c))) :=
  (tests_heads h).congr (textEnd_heads ps)

theorem reads_path (options : Options) : Reads n (call .path) Macro.path
    fun t ps xs => t ≠ [] ∧ ContentPair .path options n t ps xs := by
  have hend : Tests (choose [literal "[", blank, reserved])
      (textEnd (headIs fun c => isReserved c || c == '[' || Text.isBlank c)) :=
    (tests_contentEnd (.cons (.mark '[' rfl (by decide)) (.cons (.char (by decide)) .nil))).congr
      fun glyphs => by simp [Bool.or_assoc]
  exact reads_content rfl rfl (fun _ _ => rfl) hend fun _ _ => rfl

theorem reads_linkText (options : Options) : Reads n (call .linkText) (Macro.linkText fun c => c == ',' || c == ']')
    fun t ps xs => t ≠ [] ∧ ContentPair .linkText options n t ps xs := by
  have hend : Tests (choose [literal ",", literal "]", reserved])
      (textEnd (headIs fun c => isReserved c || (c == ',' || c == ']'))) :=
    (tests_contentEnd (.cons (.mark ',' rfl (by decide))
      (.cons (.mark ']' rfl (by decide)) .nil))).congr fun glyphs => by simp
  exact reads_content rfl rfl (fun _ _ => rfl) hend fun _ _ => rfl

theorem reads_label (options : Options) : Reads n (call .label) Macro.wholeLabel
    fun t ps xs => t ≠ [] ∧ ContentPair .label options n t ps xs := by
  have hend : Tests (choose [literal "]", reserved])
      (textEnd (headIs fun c => isReserved c || c == ']')) :=
    (tests_contentEnd (.cons (.mark ']' rfl (by decide)) .nil)).congr fun glyphs => by simp
  exact reads_content rfl rfl (fun _ _ => rfl) hend fun _ _ => rfl

theorem reads_indexTermContent (options : Options) : Reads n (call .indexTermContent)
    (do return content (← someUpTo fun glyphs => startsWith "))".toList glyphs || headIs isReserved glyphs))
    fun t ps xs => t ≠ [] ∧ ContentPair .indexTermContent options n t ps xs := by
  have hend : Tests (choose [literal "))", reserved])
      (textEnd fun glyphs => startsWith "))".toList glyphs || headIs isReserved glyphs) :=
    (tests_choose (.cons (.literal (by decide)) (.cons tests_reserved .nil))).congr
      fun glyphs => by simp [textEnd, atReserved, Bool.or_left_comm]
  exact reads_content rfl rfl (fun _ _ => rfl) hend fun _ _ => rfl

def headThen (p : Char → Bool) (q : List Glyph → Bool) : List Glyph → Bool
  | .char c :: rest => p c && q rest
  | _ => false

theorem Tests.headThen {p : Char → Bool} {f : Expression} {q : List Glyph → Bool}
    (he : Steps e fun glyphs => !headIs p glyphs) (hf : Tests f q) :
    Tests (seq e f) (headThen p q) := by
  intro n glyphs hg
  rcases glyphs with _ | ⟨g, rest⟩
  · exact ⟨fun h => (by cases h), fun _ => .seqFails (he.atEnd n)⟩
  · cases hp : headIs p (g :: rest) with
    | false =>
      have hno : Peg.headThen p q (g :: rest) = false := by
        cases g with
        | char c => rw [Peg.headThen, show p c = false from hp, Bool.false_and]
        | token digits => rfl
      refine ⟨fun h => (by rw [hno] at h; cases h), fun _ => .seqFails ?_⟩
      exact he.atStop n g rest hg (by rw [hp]; rfl)
    | true =>
      obtain ⟨c, rfl, hrun⟩ := he.char n g rest hg (by rw [hp]; rfl)
      obtain ⟨htrue, hfalse⟩ := hf (n + c.utf8Size) rest hg.tail
      have hrest : Peg.headThen p q (.char c :: rest) = q rest := by
        rw [Peg.headThen, show p c = true from hp, Bool.true_and]
      rw [hrest]
      refine ⟨fun hq => ?_, fun hq => .seqFailsAfter hrun (hfalse hq)⟩
      obtain ⟨_, hnext⟩ := htrue hq
      exact ⟨_, .seq hrun hnext⟩

theorem tests_linkPathEnd : Tests linkPathEnd (textEnd Macro.linkPathEnd) := by
  have hpunctuation : Steps (choose [literal ".", literal ",", literal ";", literal ":", literal "!",
      literal "?", literal ")"]) fun glyphs => !headIs Macro.isPunctuation glyphs := by
    refine (Steps.choose (.cons (.ofLiteral '.' rfl (by decide)) (.cons (.ofLiteral ',' rfl (by decide))
      (.cons (.ofLiteral ';' rfl (by decide)) (.cons (.ofLiteral ':' rfl (by decide))
        (.cons (.ofLiteral '!' rfl (by decide)) (.cons (.ofLiteral '?' rfl (by decide))
          (.cons (.ofLiteral ')' rfl (by decide)) .nil)))))))).congr fun glyphs => ?_
    rcases glyphs with _ | ⟨c | digits, rest⟩
    · rfl
    · simp [headIs, Macro.isPunctuation, Bool.or_assoc]
    · rfl
  have hlast : Tests (choice blank .finish) fun rest => rest.isEmpty || headIs Text.isBlank rest :=
    (Tests.choice (.char (by decide)) .finish).congr fun _ => Bool.or_comm ..
  refine (tests_choose (.cons (.char (by decide)) (.cons (.mark '[' rfl (by decide))
    (.cons (.mark ']' rfl (by decide)) (.cons tests_reserved (.cons (.mark '<' rfl (by decide))
      (.cons (.mark '>' rfl (by decide)) (.cons (.mark '"' rfl (by decide))
        (.cons (.headThen hpunctuation hlast) .nil))))))))).congr fun glyphs => ?_
  rcases glyphs with _ | ⟨c | digits, rest⟩
  · rfl
  · simp [headIs, headThen, textEnd, atReserved, atToken, Macro.linkPathEnd, Macro.isLinkBracket]
    ac_rfl
  · simp [headIs, headThen, textEnd, atReserved, atToken, Macro.linkPathEnd]

theorem reads_linkPath (options : Options) : Reads n (call .linkPath) Macro.linkPath
    fun t ps xs => t ≠ [] ∧ ContentPair .linkPath options n t ps xs :=
  reads_content rfl rfl (fun _ _ => rfl) tests_linkPathEnd fun _ _ => rfl

theorem reads_linkScheme : Reads n (call .linkScheme) Macro.linkScheme fun t ps scheme =>
    t ≠ [] ∧ numerals t = [] ∧ ps = [.node .linkScheme n scheme.toList []] := by
  refine .atomic rfl (reads_literals _ (f := id) (by decide) fun scheme hscheme => ?_)
  have hne : ∀ scheme ∈ ["https://", "http://", "ftp://", "irc://", "mailto:"], spell scheme ≠ [] := by
    decide
  exact ⟨hne scheme hscheme, numerals_spell scheme, by rw [flatMap_chars_spell]; rfl⟩

theorem tests_argumentEnd : Tests (choose [literal ",", literal "]", reserved]) Macro.argumentEnd :=
  (tests_heads (.cons (.mark ',' rfl (by decide)) (.cons (.mark ']' rfl (by decide)) .nil))).congr
    fun glyphs => by simp [Macro.argumentEnd]

def Named (ps : List Tree) (entry : String × Value) : Prop :=
  ∃ offset text inner, ps = [.node .namedAttribute offset text inner] ∧
    namedAttribute (.node .namedAttribute offset text inner) = .ok entry

theorem reads_namedAttribute : Reads n (call .namedAttribute) Macro.namedArgument
    fun t ps entry => t ≠ [] ∧ numerals t = [] ∧ Named ps entry := by
  refine .compound rfl (Reads.bind (reads_chars rfl (by decide)) ?_)
  rintro key _ _ ⟨⟨rfl, rfl, hkey⟩, -⟩
  refine skip (by decide) (Reads.bind (reads_star rfl tests_argumentEnd fun _ _ => rfl) ?_)
  rintro value _ _ ⟨rfl, rfl, hvalue⟩
  exact .pure ⟨by simp [spell], by simp [hkey, hvalue], _, _, _, rfl, rfl⟩

theorem reads_next {α : Type} {f : Expression} {r : Reader α} {R : List Tree → α → Prop}
    (h : ∀ n, Reads n f r fun t ps a => t ≠ [] ∧ numerals t = [] ∧ R ps a) (n : Nat) :
    Reads n (nextArgument f) (Macro.next r) fun t ps a => t ≠ [] ∧ numerals t = [] ∧ R ps a := by
  refine skip (by decide) (Reads.bind reads_spaces ?_)
  rintro gap _ _ ⟨rfl, rfl, hgap⟩
  refine (h _).seq_empty.mono ?_
  rintro t ps a ⟨-, ht, hR⟩
  exact ⟨by simp [spell], by simp [hgap, ht], hR⟩

def Keeps (options : Options) (n : Nat) (t : List Glyph) (ps : List Tree)
    (entries : List (String × Value)) : Prop :=
  ∀ found, linkAttributesOf options found ps =
    checked n t (entries.foldl (fun acc entry => acc.insert entry.1 entry.2) found)

theorem linkAttributesOf_append (found : Attributes) (ps qs : List Tree) :
    linkAttributesOf options found (ps ++ qs) =
      (linkAttributesOf options found ps >>= fun found => linkAttributesOf options found qs) := by
  induction ps generalizing found with
  | nil => rfl
  | cons p ps ih =>
    obtain ⟨name, offset, text, inner⟩ := p
    rw [List.cons_append, linkAttributesOf.eq_def, linkAttributesOf.eq_def options found (_ :: ps)]
    dsimp only
    split
    · cases buildAll options inner with
      | error failure => rfl
      | ok xs => exact ih _
    · cases buildAll options inner with
      | error failure => rfl
      | ok xs => exact ih _
    · cases namedAttribute (.node .namedAttribute offset text inner) with
      | error failure => rfl
      | ok entry => exact ih _
    · rfl

theorem Keeps.append {t u : List Glyph} {ps qs : List Tree} {entries further : List (String × Value)}
    (h : Keeps options n t ps entries) (h' : Keeps options (n + size t) u qs further) :
    Keeps options n (t ++ u) (ps ++ qs) (entries ++ further) := by
  intro found
  rw [linkAttributesOf_append, h, List.foldl_append]
  exact (bind_congr fun found => h' found).trans (checked_append t u _ _)

theorem keeps_named {t : List Glyph} {ps : List Tree} {entry : String × Value}
    (ht : numerals t = []) (h : Named ps entry) : Keeps options n t ps [entry] := by
  intro found
  obtain ⟨offset, text, inner, rfl, hnamed⟩ := h
  rw [linkAttributesOf, hnamed, checked_of_tokenless ht]
  rfl

theorem keeps_repeated {t : List Glyph} {ps : List Tree} {entries : List (String × Value)}
    (h : Repeated (fun _ t ps entry => t ≠ [] ∧ numerals t = [] ∧ Named ps entry) n t ps entries) :
    Keeps options n t ps entries := by
  induction h with
  | nil => intro found; rfl
  | cons hentry _ ih => exact (keeps_named hentry.2.1 hentry.2.2).append ih

theorem keeps_content {t : List Glyph} {ps : List Tree} {xs : List Element}
    (hname : name = .linkText ∨ name = .label) (h : ContentPair name options n t ps xs) :
    Keeps options n t ps [(Macro.linkTextName, .elements xs)] := by
  intro found
  obtain ⟨inner, rfl, hgives⟩ := h
  have hkeep := (hgives.bind fun content =>
    pure (found.insert Macro.linkTextName (.elements content))).trans (checked_bind_pure _ t xs)
  rcases hname with rfl | rfl
  · exact hkeep
  · exact hkeep

theorem reads_onlyNamed :
    Reads n (seq (call .namedAttribute) (star (nextArgument (call .namedAttribute)))) Macro.onlyNamed
      fun t ps entries => t ≠ [] ∧ Keeps options n t ps entries := by
  refine Reads.bind reads_namedAttribute fun t ps entry ⟨hne, ht, hentry⟩ => .map ?_
  refine (Reads.many (reads_next fun _ => reads_namedAttribute) (fun _ _ _ _ h => h.1) _).mono ?_
  intro u qs entries hentries
  exact ⟨List.append_ne_nil_of_left_ne_nil hne _,
    (keeps_named ht hentry).append (keeps_repeated hentries)⟩

theorem reads_textAndNamed :
    Reads n (seq (call .linkText) (plus (nextArgument (call .namedAttribute)))) Macro.textAndNamed
      fun t ps entries => t ≠ [] ∧ Keeps options n t ps entries := by
  have hreader : Macro.textAndNamed = (do
      let text ← Macro.linkText fun c => c == ',' || c == ']'
      return (Macro.linkTextName, .elements text) :: (← oneOrMore (Macro.next Macro.namedArgument))) := by
    simp [Macro.textAndNamed, oneOrMore]
  rw [hreader]
  refine Reads.bind (reads_linkText options) ?_
  rintro t ps text ⟨hne, htext⟩
  refine .map ?_
  refine (Reads.plus (reads_next fun _ => reads_namedAttribute) (fun _ _ _ _ h => h.1) _).mono ?_
  rintro u qs entries ⟨-, hentries⟩
  exact ⟨List.append_ne_nil_of_left_ne_nil hne _,
    (keeps_content (.inl rfl) htext).append (keeps_repeated hentries)⟩

theorem reads_onlyText :
    Reads n (call .label) Macro.onlyText fun t ps entries => t ≠ [] ∧ Keeps options n t ps entries :=
  .map ((reads_label options).mono fun _ _ _ ⟨hne, hlabel⟩ => ⟨hne, keeps_content (.inr rfl) hlabel⟩)

theorem reads_linkAttributes (options : Options) : Reads n (call .linkAttributes) Macro.linkArguments
    fun t ps entries => t ≠ [] ∧ ∃ inner, ps = [.node .linkAttributes n (t.flatMap chars) inner] ∧
      linkAttributesOf options ∅ inner = checked n t (Dict.ofList entries) := by
  have hentries (n : Nat) : Reads n (optional linkArguments)
      (Reader.optional (firstOf [Macro.onlyNamed, Macro.textAndNamed, Macro.onlyText]))
      fun t ps entries => Keeps options n t ps (entries.getD []) :=
    .optional ((Reads.firstOf (.cons reads_onlyNamed (.cons reads_textAndNamed
      (.cons reads_onlyText .nil)))).mono fun _ _ _ h => h.2) fun _ => rfl
  refine .compound rfl (skip (by decide) (Reads.bind (hentries _) fun t ps entries hkeeps => ?_))
  refine skip (by decide) (.pure ⟨by simp [spell], ps, by simp only [List.append_nil], ?_⟩)
  rw [checked_append_of_left (numerals_spell _), checked_append_of_right (by simp)]
  exact hkeeps ∅

def Completes (options : Options) (n : Nat) (t : List Glyph) (ps : List Tree)
    (attributes : Attributes) : Prop :=
  ∀ location, linkOf options (location, ∅) ps = checked n t (location, attributes)

theorem reads_completed (options : Options) : Reads n (call .linkAttributes) Macro.linkArguments
    fun t ps entries => Completes options n t ps (Dict.ofList entries) := by
  refine (reads_linkAttributes options).mono ?_
  rintro t _ entries ⟨-, inner, rfl, hentries⟩ location
  rw [linkOf, hentries]
  exact checked_bind_pure (fun attributes => (location, attributes)) t _

theorem linkOf_scheme (offset : Nat) (scheme : String) (ps : List Tree) :
    linkOf options (⟨"", []⟩, ∅) ([.node .linkScheme offset scheme.toList []] ++ ps) =
      linkOf options (⟨scheme, []⟩, ∅) ps := by
  rw [List.singleton_append, linkOf, String.ofList_toList]

theorem linkOf_path {t u : List Glyph} {ps qs : List Tree} {path : List Element}
    {attributes : Attributes} (hname : name = .linkPath ∨ name = .path)
    (hpath : ContentPair name options n t ps path)
    (hqs : Completes options (n + size t) u qs attributes) (scheme : String) :
    linkOf options (⟨scheme, []⟩, ∅) (ps ++ qs) = checked n (t ++ u) (⟨scheme, path⟩, attributes) := by
  obtain ⟨inner, rfl, hgives⟩ := hpath
  have hlink : (do
      let path := merge (← buildAll options inner)
      linkOf options (⟨scheme, path⟩, ∅) qs) = checked n (t ++ u) (⟨scheme, path⟩, attributes) := by
    refine (hgives.bind fun path => linkOf options (⟨scheme, path⟩, ∅) qs).trans ?_
    simp only [hqs _]
    exact checked_append t u path fun path => ((⟨scheme, path⟩ : Location Element), attributes)
  rcases hname with rfl | rfl
  · exact hlink
  · exact hlink

theorem builds_link {p : Tree} {t : List Glyph} {location : Location Element} {attributes : Attributes}
    {ps : List Tree}
    (hp : build options p = (do
      let link ← linkOf options (⟨"", []⟩, ∅) ps
      return [.link link.1 link.2]))
    (h : linkOf options (⟨"", []⟩, ∅) ps = checked n t (location, attributes)) :
    Builds options n t [p] [.link location attributes] := by
  refine .of_build (hp.trans ?_)
  rw [h]
  exact checked_bind_pure (fun link => [Element.link link.1 link.2]) t (location, attributes)

theorem reads_bareLink :
    ReadsElement options n (call .bareLink) (Macro.bareLink Dict.ofList) := by
  refine .compound rfl (Reads.bind reads_linkScheme ?_)
  rintro s _ scheme ⟨hne, hs, rfl⟩
  refine Reads.bind (reads_linkPath options) ?_
  rintro t ps path ⟨-, hpath⟩
  refine Reads.bind (P := fun u qs entries =>
    Completes options (n + size s + size t) u qs (Dict.ofList (entries.getD []))) ?_ ?_
  · exact .optional (reads_completed options) fun _ => rfl
  · intro u qs entries hqs
    refine .pure ⟨by simp [hne], builds_link (by rw [build]) ?_⟩
    rw [linkOf_scheme, List.append_nil, List.append_nil, checked_append_of_left hs]
    exact linkOf_path (.inl rfl) hpath hqs scheme

theorem reads_link : ReadsElement options n (call .link) (Macro.link Dict.ofList) := by
  refine .compound rfl (skip (by decide) ?_)
  refine Reads.bind (P := fun s ps scheme => numerals s = [] ∧ ∀ qs,
    linkOf options (⟨"", []⟩, ∅) (ps ++ qs) = linkOf options (⟨scheme.getD "", []⟩, ∅) qs) ?_ ?_
  · refine .optional (reads_linkScheme.mono ?_) ⟨rfl, fun _ => rfl⟩
    rintro s _ scheme ⟨-, hs, rfl⟩
    exact ⟨hs, linkOf_scheme _ scheme⟩
  rintro s ps scheme ⟨hs, hscheme⟩
  refine Reads.bind (reads_path options) ?_
  rintro t qs path ⟨hne, hpath⟩
  refine .map ((reads_completed options).seq_empty.mono fun u rs entries hrs => ?_)
  refine ⟨by simp [spell], builds_link (by rw [build]) ?_⟩
  rw [hscheme, checked_append_of_left (numerals_spell _), checked_append_of_left hs]
  exact linkOf_path (.inr rfl) hpath hrs _

inductive Argues : List Tree → Macro.Argument → Prop
  | named {ps : List Tree} {key : String} {value : Value} :
      Named ps (key, value) → Argues ps (.named key value)
  | positional (offset : Nat) (text : List Char) (inner : List Tree) :
      Argues [.node .positionalArgument offset text inner] (.positional (argumentValue text))

theorem reads_argument : Reads n argument Macro.argument
    fun t ps a => t ≠ [] ∧ numerals t = [] ∧ Argues ps a := by
  refine .orElse (.map (reads_namedAttribute.mono ?_)) (.choice_fail (.map ?_))
  · rintro t ps ⟨key, value⟩ ⟨hne, ht, hnamed⟩
    exact ⟨hne, ht, .named hnamed⟩
  · refine (reads_plus rfl tests_argumentEnd fun _ _ => rfl).mono ?_
    rintro t _ _ ⟨⟨rfl, rfl, ht⟩, hne⟩
    exact ⟨hne, ht, .positional _ _ _⟩

theorem numerals_of_repeated {t : List Glyph} {ps : List Tree} {arguments : List Macro.Argument}
    (h : Repeated (fun _ t ps a => t ≠ [] ∧ numerals t = [] ∧ Argues ps a) n t ps arguments) :
    numerals t = [] := by
  induction h with
  | nil => rfl
  | cons ha _ ih => rw [numerals_append, ha.2.1, ih]; rfl

theorem argumentsOf_repeated {t : List Glyph} {ps : List Tree} {arguments : List Macro.Argument}
    (h : Repeated (fun _ t ps a => t ≠ [] ∧ numerals t = [] ∧ Argues ps a) n t ps arguments)
    (names : List String) (position : Nat) (found : Attributes) :
    argumentsOf names position found ps =
      .ok ((Macro.entries (names.drop position) (position + 1) arguments).foldl
        (fun acc entry => acc.insert entry.1 entry.2) found) := by
  induction h generalizing position found with
  | nil => rfl
  | @cons n t u ps qs a arguments ha _ ih =>
    obtain ⟨-, -, ha⟩ := ha
    cases ha with
    | @named ps key value hnamed =>
      obtain ⟨offset, text, inner, rfl, hnamed⟩ := hnamed
      have hstep : argumentsOf names position found
          ([.node .namedAttribute offset text inner] ++ qs) =
            argumentsOf names position (found.insert key value) qs := by
        rw [List.singleton_append, argumentsOf]
        simp only [Pair.name, hnamed]
        rfl
      rw [hstep, ih, Macro.entries, List.foldl_cons]
    | positional offset text inner =>
      have hkey : names[position]?.getD ("positional-" ++ toString (position + 1)) =
          (names.drop position).head?.getD ("positional-" ++ toString (position + 1)) := by
        rw [List.head?_drop]
      have hdrop : names.drop (position + 1) = (names.drop position).drop 1 := List.drop_drop.symm
      have hstep : argumentsOf names position found
          ([.node .positionalArgument offset text inner] ++ qs) =
            argumentsOf names (position + 1) (if argumentValue text = "" then found else
              found.insert (names[position]?.getD ("positional-" ++ toString (position + 1)))
                (.string (argumentValue text))) qs := rfl
      rw [hstep, ih, Macro.entries, hkey, hdrop]
      by_cases hempty : argumentValue text = ""
      · rw [if_pos hempty, if_pos hempty]
      · rw [if_neg hempty, if_neg hempty, List.foldl_cons]

theorem reads_arguments : Reads n (call .arguments) Macro.arguments fun t ps arguments =>
    t ≠ [] ∧ numerals t = [] ∧ ∃ text inner, ps = [.node .arguments n text inner] ∧
      ∀ names, argumentsOf names 0 ∅ inner = .ok (Dict.ofList (Macro.entries names 1 arguments)) := by
  have hall (n : Nat) : Reads n (optional (seq argument (star (nextArgument argument))))
      (Reader.optional do
        let first ← Macro.argument
        return first :: (← many (Macro.next Macro.argument)))
      fun t ps arguments => numerals t = [] ∧ ∀ names,
        argumentsOf names 0 ∅ ps = .ok (Dict.ofList (Macro.entries names 1 (arguments.getD []))) := by
    refine .optional (Reads.bind reads_argument fun t ps a ha => .map ?_) ⟨rfl, fun _ => rfl⟩
    refine (Reads.many (reads_next fun _ => reads_argument) (fun _ _ _ _ h => h.1) _).mono ?_
    intro u qs arguments hrest
    have hrepeated : Repeated (fun _ t ps a => t ≠ [] ∧ numerals t = [] ∧ Argues ps a) n (t ++ u)
        (ps ++ qs) (a :: arguments) := .cons ha hrest
    exact ⟨numerals_of_repeated hrepeated, fun names => argumentsOf_repeated hrepeated names 0 ∅⟩
  refine .compound rfl (skip (by decide) (Reads.bind (hall _) ?_))
  rintro t ps arguments ⟨ht, hps⟩
  refine skip (by decide) (.pure ⟨by simp [spell], by simp [ht], _, _, rfl, ?_⟩)
  rwa [List.append_nil]

theorem imageOf_eq (options : Options) (path : List Element) (arguments : List Macro.Argument) :
    imageOf options ⟨"", path⟩ (Dict.ofList (Macro.entries ["alt", "width", "height"] 1 arguments)) =
      .image (Location.below (options.imagesDirectory.getD "") ⟨"", path⟩)
        (Macro.imageAttributes (Location.below (options.imagesDirectory.getD "") ⟨"", path⟩)
          arguments) := by
  rw [imageOf, Macro.imageAttributes]
  cases options.imagesDirectory with
  | none =>
    have hbelow : Location.below "" ⟨"", path⟩ = ⟨"", path⟩ := by simp [Location.below]
    rw [Option.getD_none, hbelow]
    dsimp only
    split <;> rfl
  | some directory =>
    dsimp only [Option.getD_some]
    split <;> rfl

theorem imagePartsOf_eq {t : List Glyph} {ps inner : List Tree} {path : List Element}
    {attributes : Attributes} (hpath : ContentPair .path options n t ps path)
    (harguments : argumentsOf ["alt", "width", "height"] 0 ∅ inner = .ok attributes) (offset : Nat)
    (text : List Char) :
    imagePartsOf options (⟨"", []⟩, ∅) (ps ++ [.node .arguments offset text inner]) =
      checked n t (⟨"", path⟩, attributes) := by
  obtain ⟨pieces, rfl, hgives⟩ := hpath
  have hattributes (path : List Element) :
      imagePartsOf options (⟨"", path⟩, ∅) [.node .arguments offset text inner] =
        .ok (⟨"", path⟩, attributes) := by
    rw [imagePartsOf, harguments]
    rfl
  refine (hgives.bind fun path =>
    imagePartsOf options (⟨"", path⟩, ∅) [.node .arguments offset text inner]).trans ?_
  simp only [hattributes]
  exact checked_bind_pure (fun path => ((⟨"", path⟩ : Location Element), attributes)) t path

theorem reads_image : ReadsElement options n (call .image) (Macro.image options) := by
  refine .compound rfl (skip (by decide) (Reads.bind (.notAhead (.mark ':' rfl (by decide))) ?_))
  rintro _ _ _ ⟨rfl, rfl⟩
  refine Reads.bind (reads_path options) ?_
  rintro t ps path ⟨hne, hpath⟩
  refine .map (reads_arguments.seq_empty.mono ?_)
  rintro u _ arguments ⟨-, hu, text, inner, rfl, harguments⟩
  refine ⟨by simp [spell], .of_build ?_⟩
  rw [build, List.nil_append, List.nil_append, imagePartsOf_eq hpath (harguments _),
    checked_append_of_left (numerals_spell _), checked_append_of_right hu, ← imageOf_eq]
  exact checked_bind_pure (fun image : Location Element × Attributes =>
    [imageOf options image.1 image.2]) t _

theorem reads_icon : ReadsElement options n (call .icon) Macro.icon := by
  have hend : Tests (choose [literal "[", blank, reserved])
      fun glyphs => atReserved glyphs || headIs (fun c => c == '[' || Text.isBlank c) glyphs :=
    (tests_heads (.cons (.mark '[' rfl (by decide)) (.cons (.char (by decide)) .nil))).congr
      fun glyphs => by simp
  refine .compound rfl (skip (by decide) (Reads.bind (reads_plus rfl hend fun _ _ => rfl) ?_))
  rintro t _ _ ⟨⟨rfl, rfl, ht⟩, hne⟩
  refine .map (reads_arguments.seq_empty.mono ?_)
  rintro u _ arguments ⟨-, hu, text, inner, rfl, harguments⟩
  refine ⟨by simp [spell], .plain (by simp [ht, hu]) ?_⟩
  rw [build, List.singleton_append, iconOf]
  simp only [Pair.name, iconOf, Pair.inner, harguments]
  rfl

def Labels (options : Options) (n : Nat) (t : List Glyph) (ps : List Tree) (label : List Element) :
    Prop :=
  ∀ location, documentReferenceOf options (location, []) ps = checked n t (location, label)

theorem reads_optionalLabel (options : Options) :
    Reads n (optional (call .label)) (Reader.optional Macro.wholeLabel)
      fun t ps label => Labels options n t ps (label.getD []) := by
  refine .optional ((reads_label options).mono ?_) fun _ => rfl
  rintro t _ label ⟨-, inner, rfl, hlabel⟩ location
  exact (hlabel.bind fun label => pure (location, label)).trans
    (checked_bind_pure (fun label => (location, label)) t label)

theorem documentReferenceOf_path {t u : List Glyph} {ps qs : List Tree} {path label : List Element}
    (hpath : ContentPair .path options n t ps path) (hqs : Labels options (n + size t) u qs label) :
    documentReferenceOf options (⟨"", []⟩, []) (ps ++ qs) = checked n (t ++ u) (⟨"", path⟩, label) := by
  obtain ⟨inner, rfl, hgives⟩ := hpath
  refine (hgives.bind fun path => documentReferenceOf options (⟨"", path⟩, []) qs).trans ?_
  simp only [hqs _]
  exact checked_append t u path fun path => ((⟨"", path⟩ : Location Element), label)

theorem reads_documentReference :
    ReadsElement options n (call .documentReference) Macro.documentReference := by
  refine .compound rfl (skip (by decide) (Reads.bind (reads_path options) ?_))
  rintro t ps path ⟨hne, hpath⟩
  refine skip (by decide) (Reads.bind (reads_optionalLabel options) ?_)
  intro u qs label hqs
  have hbracketed : Labels options (n + size (spell "xref:") + size t) (spell "[" ++ u) qs
      (label.getD []) := by
    intro location
    rw [checked_append_of_left (numerals_spell _)]
    exact hqs location
  refine skip (by decide) (.pure ⟨by simp [spell], .of_build ?_⟩)
  have hall : t ++ (spell "[" ++ (u ++ spell "]")) = t ++ (spell "[" ++ u) ++ spell "]" := by
    simp only [List.append_assoc]
  rw [build, List.append_nil, List.append_nil, documentReferenceOf_path hpath hbracketed,
    checked_append_of_left (numerals_spell _), hall, checked_append_of_right (numerals_spell _)]
  exact checked_bind_pure (fun reference : Location Element × List Element =>
    [Element.documentReference reference.1 reference.2]) _ _

theorem reads_noteText : ReadsElement options n (call .footnoteText) Macro.noteText := by
  have hscheme : Tests (call .linkScheme) fun glyphs => (Macro.linkScheme.run glyphs).isSome :=
    Reads.tests fun _ => reads_linkScheme.mono fun _ _ _ _ => trivial
  have hend : Tests (choose [literal "]", reserved, call .linkScheme]) fun glyphs =>
      atReserved glyphs || headIs (· == ']') glyphs || (Macro.linkScheme.run glyphs).isSome :=
    (tests_choose (.cons (.mark ']' rfl (by decide)) (.cons tests_reserved (.cons hscheme .nil)))).congr
      fun glyphs => by simp [Bool.or_left_comm, Bool.or_assoc]
  exact reads_text rfl (fun _ _ => rfl) hend fun _ _ => rfl

theorem reads_optionalMany {α : Type} {r : Reader α} {P : Nat → List Glyph → List Tree → α → Prop}
    (hname : grammar name = .compound (plus e)) (h : ∀ n, Reads n e r (P n))
    (hne : ∀ n t ps a, P n t ps a → t ≠ []) (n : Nat) :
    Reads n (optional (call name)) (many r) fun t ps as =>
      as = [] ∧ t = [] ∧ ps = [] ∨
      ∃ inner, ps = [.node name n (t.flatMap chars) inner] ∧ Repeated P n t inner as := by
  have hcall : Reads n (call name) (oneOrMore r) fun t ps as =>
      ∃ inner, ps = [.node name n (t.flatMap chars) inner] ∧ Repeated P n t inner as :=
    .compound hname ((Reads.plus h hne n).mono fun _ inner _ ⟨_, hinner⟩ => ⟨inner, rfl, hinner⟩)
  intro glyphs hg
  refine ⟨fun as rest hr => ?_, fun hr => by cases hr⟩
  cases hfirst : r.run glyphs with
  | none =>
    have hnone : (oneOrMore r).run glyphs = none := by rw [oneOrMore, run_bind, hfirst, Option.bind_none]
    rw [run_many_of_none hfirst] at hr
    obtain ⟨rfl, rfl⟩ := Prod.mk.inj (Option.some.inj hr)
    exact ⟨[], [], rfl, .second ((hcall _ hg).2 hnone) (.empty _), .inl ⟨rfl, rfl, rfl⟩⟩
  | some found =>
    obtain ⟨a, left⟩ := found
    obtain ⟨t, ps, rfl, -, hp⟩ := (h n _ hg).1 a left hfirst
    have hshorter : left.length < (t ++ left).length := by
      rw [List.length_append]
      exact Nat.lt_add_of_pos_left (List.length_pos_iff.mpr (hne _ _ _ _ hp))
    have hmany : (oneOrMore r).run (t ++ left) = (many r).run (t ++ left) := by
      change _ = some (manyFrom r (t ++ left))
      rw [manyFrom_of_run hfirst hshorter, oneOrMore, run_bind, hfirst]
      rfl
    obtain ⟨u, qs, he, hrun, hq⟩ := (hcall _ hg).1 as rest (hmany.trans hr)
    exact ⟨u, qs, he, .first hrun, .inr hq⟩

theorem reads_noteContent (options : Options) :
    Reads n (optional (call .footnoteContent)) (Macro.noteContent Dict.ofList) fun t ps content =>
      ∀ note, footnoteOf options (note, []) ps = checked n t (note, content) := by
  have hpiece (n : Nat) : ReadsElement options n
      (choose [call .placeholder, call .bareLink, call .footnoteText])
      (firstOf [Macro.token, Macro.bareLink Dict.ofList, Macro.noteText]) :=
    .firstOf (.cons reads_placeholder (.cons reads_bareLink (.cons reads_noteText .nil)))
  refine .map ((reads_optionalMany rfl hpiece (fun _ _ _ _ hp => hp.1) n).mono ?_)
  rintro t ps xs (⟨rfl, rfl, rfl⟩ | ⟨inner, rfl, hinner⟩) note
  · rfl
  · have hgives : Gives options n t inner (merge xs) := (Builds.of_repeated hinner).merged
    exact (hgives.bind fun content => pure (note, content)).trans
      (checked_bind_pure (fun content => (note, content)) t _)

theorem reads_footnote : ReadsElement options n (call .footnote) (Macro.footnote Dict.ofList) := by
  refine .compound rfl (skip (by decide) ?_)
  refine Reads.bind (P := fun s ps note => numerals s = [] ∧ ∀ qs,
    footnoteOf options (none, []) (ps ++ qs) = footnoteOf options (note.map textOf, []) qs) ?_ ?_
  · refine .optional ((reads_chars rfl (by decide)).mono ?_) ⟨rfl, fun _ => rfl⟩
    rintro s _ _ ⟨⟨rfl, rfl, hs⟩, -⟩
    exact ⟨hs, fun _ => rfl⟩
  rintro s ps note ⟨hs, hnote⟩
  refine skip (by decide) (Reads.bind (reads_noteContent options) fun t qs content hqs => ?_)
  refine skip (by decide) (.pure ⟨by simp [spell], .of_build ?_⟩)
  rw [build, List.append_nil, List.append_nil, hnote, hqs, checked_append_of_left (numerals_spell _),
    checked_append_of_left hs, checked_append_of_left (numerals_spell _),
    checked_append_of_right (numerals_spell _)]
  exact checked_bind_pure (fun note : Option String × List Element =>
    [Element.footnote note.1 note.2]) _ _

theorem reads_indexTerm : ReadsElement options n (call .indexTerm) Macro.indexTerm := by
  have hreader : Macro.indexTerm = (do
      Reader.literal "(("
      Reader.ahead fun glyphs => !headIs (· == '(') glyphs
      let term ← (do return content (← someUpTo fun glyphs =>
        startsWith "))".toList glyphs || headIs isReserved glyphs))
      Reader.literal "))"
      return .indexTerm term) := by
    simp [Macro.indexTerm]
  rw [hreader]
  refine .compound rfl (skip (by decide) (Reads.bind (.notAhead (.mark '(' rfl (by decide))) ?_))
  rintro _ _ _ ⟨rfl, rfl⟩
  refine Reads.bind (reads_indexTermContent options) ?_
  rintro t _ xs ⟨hne, inner, rfl, hgives⟩
  refine skip (by decide) (.pure ⟨by simp [spell], .of_build ?_⟩)
  rw [List.nil_append, List.append_nil, List.append_nil, checked_append_of_left (numerals_spell _),
    checked_append_of_right (numerals_spell _)]
  exact (hgives.bind fun term => pure [Element.indexTerm term]).trans (checked_bind_pure _ t xs)

theorem reads_hiddenTerm : Reads n (call .hiddenTerm) Macro.hiddenTerm fun t ps term =>
    t ≠ [] ∧ numerals t = [] ∧ ∃ offset text, ps = [.node .hiddenTerm offset text []] ∧
      term = Text.trim (String.ofList text) := by
  have hend : Tests (choose [literal ",", literal ")))", reserved]) fun glyphs =>
      startsWith ")))".toList glyphs || atReserved glyphs || headIs (· == ',') glyphs :=
    (tests_choose (.cons (.mark ',' rfl (by decide)) (.cons (.literal (by decide))
      (.cons tests_reserved .nil)))).congr
      fun glyphs => by simp [Bool.or_comm]
  refine .map ((reads_plus rfl hend fun _ _ => rfl).mono ?_)
  rintro t _ _ ⟨⟨rfl, rfl, ht⟩, hne⟩
  exact ⟨hne, ht, _, _, rfl, rfl⟩

theorem reads_furtherTerms :
    Reads n (sequence [literal ",", call .hiddenTerm,
      optional (seq (literal ",") (call .hiddenTerm))]) Macro.furtherTerms fun t ps terms =>
        numerals t = [] ∧ (ps.map fun pair => Text.trim pair.string) = terms.1 :: terms.2.toList := by
  refine skip (by decide) (Reads.bind reads_hiddenTerm ?_)
  rintro t _ term ⟨-, ht, offset, text, rfl, rfl⟩
  have hthird (n : Nat) : Reads n (optional (seq (literal ",") (call .hiddenTerm)))
      (Reader.optional do Reader.literal ","; Macro.hiddenTerm) fun t ps third =>
        numerals t = [] ∧ (ps.map fun pair => Text.trim pair.string) = third.toList := by
    refine .optional (skip (by decide) (reads_hiddenTerm.mono ?_)) ⟨rfl, rfl⟩
    rintro u _ third ⟨-, hu, offset, text, rfl, rfl⟩
    exact ⟨by simp [hu], rfl⟩
  refine .map ((hthird _).seq_empty.mono ?_)
  rintro u ps third ⟨hu, hps⟩
  exact ⟨by simp [ht, hu], by rw [List.singleton_append, List.map_cons, hps]; rfl⟩

theorem reads_hiddenIndexTerm :
    ReadsElement options n (call .hiddenIndexTerm) Macro.hiddenIndexTerm := by
  refine .compound rfl (skip (by decide) (Reads.bind reads_hiddenTerm ?_))
  rintro t _ term ⟨hne, ht, offset, text, rfl, rfl⟩
  refine Reads.bind (P := fun u ps terms => numerals u = [] ∧
    (ps.map fun pair => Text.trim pair.string) =
      (terms.map fun terms => terms.1 :: terms.2.toList).getD []) ?_ ?_
  · exact .optional reads_furtherTerms ⟨rfl, rfl⟩
  rintro u ps terms ⟨hu, hterms⟩
  refine skip (by decide) (.pure ⟨by simp [spell], .plain (by simp [ht, hu]) ?_⟩)
  rw [build, hiddenIndexTermOf, List.singleton_append, List.append_nil, List.map_cons, hterms]
  rcases terms with _ | ⟨second, _ | third⟩ <;> rfl

theorem reads_inlineMacro :
    ReadsElement options n (choose inlineMacro) (Macro.any Dict.ofList options) :=
  .firstOf (.cons reads_image (.cons reads_link (.cons reads_bareLink (.cons reads_documentReference
    (.cons reads_crossReference (.cons reads_footnote (.cons reads_hiddenIndexTerm
      (.cons reads_indexTerm (.cons reads_icon .nil)))))))))

end Manuscript.Peg

import Mathlib.Data.List.Nodup
import Mathlib.Data.List.Perm.Basic
import Manuscript.Proofs.Outcome
import Manuscript.Proofs.Walk
import Manuscript.Substitution.Pass

namespace Manuscript

def Element.isText : Element → Bool
  | .text _ => true
  | _ => false

def placeholder? : Element → Option UInt32
  | .placeholder reference => some reference
  | _ => none

def references (elements : List Element) : List UInt32 :=
  gather placeholder? elements

def putBack (original : UInt32 → Element) (elements : List Element) : List Element :=
  substituted placeholder? id original elements

def setAside (lines : List Line) : List Element :=
  lines.flatten.filter (!·.isText)

def serialized (lines : List Line) : String :=
  ((Pending.serialize lines).run Pending.empty).1

def ExactlyOnce (count : Nat) (elements : List Element) : Prop :=
  ((references elements).map UInt32.toNat).Perm (List.range' 1 count)

def nth (elements : List Element) (reference : UInt32) : Element :=
  (elements[reference.toNat - 1]?).getD .blankLine

namespace Pending

def keys (pending : Pending) : List UInt32 := pending.entries.map (·.1)

def original (pending : Pending) (reference : UInt32) : Element :=
  (pending.entries.lookup reference).getD .blankLine

def without (pending : Pending) (taken : List UInt32) : Pending :=
  { pending with entries := pending.entries.filter (·.1 ∉ taken) }

theorem lookup_eq_none_iff {reference : UInt32} {entries : List (UInt32 × Element)} :
    entries.lookup reference = none ↔ reference ∉ entries.map (·.1) := by
  rw [List.lookup_eq_none_iff, List.mem_map, not_exists]
  refine forall_congr' fun entry => ?_
  rw [not_and, bne_iff_ne, ne_comm]

theorem runFrom_takeOut_of_mem {pending : Pending} {reference : UInt32}
    (h : reference ∈ pending.keys) :
    runFrom pending (takeOut reference) =
      (.ok (pending.original reference), pending.without [reference]) := by
  have hsome : pending.entries.lookup reference ≠ none := fun hn => lookup_eq_none_iff.mp hn h
  obtain ⟨element, he⟩ := Option.ne_none_iff_exists'.mp hsome
  rw [takeOut, original, runFrom_mk]
  simp only [StateT.run, he, Option.getD_some, without, List.mem_singleton]

theorem runFrom_takeOut_of_not_mem {pending : Pending} {reference : UInt32}
    (h : reference ∉ pending.keys) :
    runFrom pending (takeOut reference) =
      (.error (.of (.unknownPlaceholder reference)), pending) := by
  have he := lookup_eq_none_iff.mpr h
  rw [takeOut, runFrom_mk]
  simp only [StateT.run, he]

theorem mem_keys_without {pending : Pending} {taken : List UInt32} {reference : UInt32} :
    reference ∈ (pending.without taken).keys ↔ reference ∈ pending.keys ∧ reference ∉ taken := by
  simp only [keys, without, List.mem_map, List.mem_filter, decide_eq_true_eq]
  constructor
  · rintro ⟨entry, ⟨hm, ht⟩, rfl⟩
    exact ⟨⟨entry, hm, rfl⟩, ht⟩
  · rintro ⟨⟨entry, hm, rfl⟩, ht⟩
    exact ⟨entry, ⟨hm, ht⟩, rfl⟩

theorem lookup_filter_not_mem {entries : List (UInt32 × Element)} {taken : List UInt32}
    {reference : UInt32} (h : reference ∉ taken) :
    (entries.filter (·.1 ∉ taken)).lookup reference = entries.lookup reference := by
  induction entries with
  | nil => rfl
  | cons entry rest ih =>
    obtain ⟨key, element⟩ := entry
    by_cases hk : key ∈ taken
    · have hne : reference ≠ key := fun he => h (he ▸ hk)
      simp [hk, List.lookup_cons, beq_false_of_ne hne, ← ih]
    · simp [hk, List.lookup_cons, ← ih]

theorem without_nil (pending : Pending) : pending.without [] = pending := by
  have h : pending.entries.filter (·.1 ∉ ([] : List UInt32)) = pending.entries := by simp
  rw [without, h]

theorem without_without (pending : Pending) (xs ys : List UInt32) :
    (pending.without xs).without ys = pending.without (xs ++ ys) := by
  simp only [without, List.filter_filter, List.mem_append, not_or, Bool.decide_and]
  congr 1
  exact List.filter_congr fun _ _ => Bool.and_comm ..

theorem runFrom_mapM_takeOut {taken : List UInt32} {pending : Pending} (distinct : taken.Nodup)
    (known : ∀ reference ∈ taken, reference ∈ pending.keys) :
    runFrom pending (taken.mapM takeOut) =
      (.ok (taken.map pending.original), pending.without taken) := by
  induction taken generalizing pending with
  | nil => rw [List.mapM_nil, runFrom_pure, List.map_nil, without_nil]
  | cons reference rest ih =>
    obtain ⟨hfresh, hrest⟩ := List.nodup_cons.mp distinct
    have hknown (r : UInt32) (hr : r ∈ rest) : r ∈ (pending.without [reference]).keys := by
      refine mem_keys_without.mpr ⟨known r (List.mem_cons_of_mem _ hr), fun h => ?_⟩
      exact hfresh (List.mem_singleton.mp h ▸ hr)
    have hsame : rest.map (pending.without [reference]).original = rest.map pending.original := by
      refine List.map_congr_left fun r hr => ?_
      have hne : r ∉ [reference] := fun h => hfresh (List.mem_singleton.mp h ▸ hr)
      rw [original, original, without, lookup_filter_not_mem hne]
    rw [List.mapM_cons,
      runFrom_bind_ok (runFrom_takeOut_of_mem (known reference List.mem_cons_self)),
      runFrom_bind_ok (ih hrest hknown), hsame, without_without]
    rfl

theorem runFrom_mapM_takeOut_error {taken : List UInt32} {pending : Pending}
    (h : ¬ (taken.Nodup ∧ ∀ reference ∈ taken, reference ∈ pending.keys)) :
    ∃ reference pending',
      runFrom pending (taken.mapM takeOut) =
        (.error (.of (.unknownPlaceholder reference)), pending') := by
  induction taken generalizing pending with
  | nil => exact absurd ⟨List.nodup_nil, by simp⟩ h
  | cons reference rest ih =>
    rw [List.mapM_cons]
    by_cases hmem : reference ∈ pending.keys
    · have hrest : ¬ (rest.Nodup ∧ ∀ r ∈ rest, r ∈ (pending.without [reference]).keys) := by
        rintro ⟨hnodup, hkeys⟩
        refine h ⟨List.nodup_cons.mpr ⟨fun hm => ?_, hnodup⟩, ?_⟩
        · exact (mem_keys_without.mp (hkeys reference hm)).2 (List.mem_singleton_self _)
        · exact List.forall_mem_cons.mpr ⟨hmem, fun r hr => (mem_keys_without.mp (hkeys r hr)).1⟩
      obtain ⟨unknown, pending', he⟩ := ih hrest
      refine ⟨unknown, pending', ?_⟩
      rw [runFrom_bind_ok (runFrom_takeOut_of_mem hmem), runFrom_bind_error he]
    · exact ⟨reference, pending, runFrom_bind_error (runFrom_takeOut_of_not_mem hmem) _⟩

theorem restore_eq (elements : List Element) :
    restore elements =
      (fun outcomes => ((rebuild placeholder? id elements).run outcomes).1) <$>
        (references elements).mapM takeOut := by
  have h : restoring? = fun element => (placeholder? element).map takeOut := by
    funext element
    cases element <;> rfl
  rw [restore, h, walkM_eq_replay]
  rfl

theorem runFrom_restore {elements : List Element} {pending : Pending}
    (distinct : (references elements).Nodup)
    (known : ∀ reference ∈ references elements, reference ∈ pending.keys) :
    runFrom pending (restore elements) =
      (.ok (putBack pending.original elements), pending.without (references elements)) := by
  rw [restore_eq, runFrom_map, runFrom_mapM_takeOut distinct known]
  exact congrArg (fun restored => (Except.ok restored, _)) (rebuild_map ..)

theorem runFrom_restore_error {elements : List Element} {pending : Pending}
    (h : ¬ ((references elements).Nodup ∧
      ∀ reference ∈ references elements, reference ∈ pending.keys)) :
    ∃ reference pending',
      runFrom pending (restore elements) =
        (.error (.of (.unknownPlaceholder reference)), pending') := by
  obtain ⟨reference, pending', he⟩ := runFrom_mapM_takeOut_error h
  refine ⟨reference, pending', ?_⟩
  rw [restore_eq, runFrom_map, he]
  rfl

theorem isEmpty_entries_without {pending : Pending} {taken : List UInt32} :
    (pending.without taken).entries.isEmpty ↔ ∀ key ∈ pending.keys, key ∈ taken := by
  simp [without, keys, List.filter_eq_nil_iff]

theorem finish_without {pending : Pending} {taken : List UInt32}
    (h : ∀ key ∈ pending.keys, key ∈ taken) : (pending.without taken).finish = .ok () :=
  if_pos (isEmpty_entries_without.mpr h)

theorem finish_without_error {pending : Pending} {taken : List UInt32}
    (h : ¬ ∀ key ∈ pending.keys, key ∈ taken) :
    ∃ left, (pending.without taken).finish = .error (.of (.placeholdersLeft left)) :=
  ⟨_, if_neg fun he => h (isEmpty_entries_without.mp he)⟩

def numbers (start count : Nat) : List UInt32 :=
  (List.range' start count).map UInt32.ofNat

theorem map_toNat_numbers {start count : Nat} (h : start + count ≤ UInt32.size) :
    (numbers start count).map UInt32.toNat = List.range' start count := by
  rw [numbers, List.map_map, List.map_congr_left, List.map_id]
  intro n hn
  have := List.mem_range'_1.mp hn
  exact UInt32.toNat_ofNat_of_lt' (by omega)

def registerAll (elements : List Element) (pending : Pending) : Pending :=
  elements.foldl (fun pending element => pending.register element) pending

theorem writeLine_snd (line : Line) (pending : Pending) :
    ((writeLine line).run pending).2 = registerAll (line.filter (!·.isText)) pending := by
  induction line generalizing pending with
  | nil => rfl
  | cons element rest ih =>
    cases element
    case text s => exact ih pending
    all_goals exact ih (pending.register _)

theorem mapM_writeLine_snd (lines : List Line) (pending : Pending) :
    ((lines.mapM writeLine).run pending).2 = registerAll (setAside lines) pending := by
  induction lines generalizing pending with
  | nil => rfl
  | cons line rest ih =>
    rw [List.mapM_cons, setAside, List.flatten_cons, List.filter_append, registerAll,
      List.foldl_append]
    change ((rest.mapM writeLine).run ((writeLine line).run pending).2).2 = _
    rw [writeLine_snd]
    exact ih _

theorem serialize_snd (lines : List Line) (pending : Pending) :
    ((serialize lines).run pending).2 = registerAll (setAside lines) pending :=
  mapM_writeLine_snd lines pending

theorem registerAll_eq (elements : List Element) (entries : List (UInt32 × Element)) (k : Nat) :
    registerAll elements ⟨UInt32.ofNat k, entries⟩ =
      ⟨UInt32.ofNat (k + elements.length),
        entries ++ (numbers (k + 1) elements.length).zip elements⟩ := by
  induction elements generalizing entries k with
  | nil => simp [registerAll]
  | cons element rest ih =>
    have hnext : UInt32.ofNat k + 1 = UInt32.ofNat (k + 1) := UInt32.ofNat_add k 1 |>.symm
    have h := ih (entries ++ [(UInt32.ofNat (k + 1), element)]) (k + 1)
    rw [registerAll, List.foldl_cons, register, hnext]
    refine h.trans ?_
    simp [numbers, List.range'_succ, Nat.add_assoc, Nat.add_comm 1]

theorem runFrom_serialize (lines : List Line) :
    runFrom empty (monadLift (serialize lines) : Codec String) =
      (.ok (serialized lines), ⟨UInt32.ofNat (setAside lines).length,
        (numbers 1 (setAside lines).length).zip (setAside lines)⟩) := by
  have h := registerAll_eq (setAside lines) [] 0
  rw [Nat.zero_add, List.nil_append] at h
  rw [runFrom_lift, serialize_snd]
  exact congrArg (Except.ok (serialized lines), ·) h

theorem parseEntries_of_mapM {parse : String → Except Fault (List Element)}
    {keys : List UInt32} {elements payloads : List Element} (hlen : keys.length = elements.length)
    (h : elements.mapM (parsePayload parse) = .ok payloads) :
    parseEntries parse (keys.zip elements) = (.ok (), keys.zip payloads) := by
  induction elements generalizing keys payloads with
  | nil => simp [parseEntries, List.length_eq_zero_iff.mp hlen]
  | cons element rest ih =>
    obtain ⟨key, keys, rfl⟩ := List.exists_cons_of_length_eq_add_one hlen
    rw [List.mapM_cons] at h
    cases hfirst : parsePayload parse element with
    | error fault => rw [hfirst] at h; cases h
    | ok payload =>
      cases hrest : rest.mapM (parsePayload parse) with
      | error fault => rw [hfirst, hrest] at h; cases h
      | ok others =>
        rw [hfirst, hrest] at h
        obtain rfl : payload :: others = payloads := Except.ok.inj h
        have hothers := ih (Nat.succ.inj hlen) hrest
        simp only [List.zip_cons_cons, parseEntries, hfirst, hothers]

theorem parseEntries_error_of_mapM {parse : String → Except Fault (List Element)}
    {keys : List UInt32} {elements : List Element} {fault : Fault}
    (hlen : keys.length = elements.length)
    (h : elements.mapM (parsePayload parse) = .error fault) :
    ∃ entries, parseEntries parse (keys.zip elements) = (.error fault, entries) := by
  induction elements generalizing keys with
  | nil => cases h
  | cons element rest ih =>
    obtain ⟨key, keys, rfl⟩ := List.exists_cons_of_length_eq_add_one hlen
    rw [List.mapM_cons] at h
    rw [List.zip_cons_cons, parseEntries]
    cases hfirst : parsePayload parse element with
    | error other =>
      rw [hfirst] at h
      obtain rfl : other = fault := Except.error.inj h
      exact ⟨_, rfl⟩
    | ok payload =>
      cases hrest : rest.mapM (parsePayload parse) with
      | ok others => rw [hfirst, hrest] at h; cases h
      | error other =>
        rw [hfirst, hrest] at h
        obtain rfl : other = fault := Except.error.inj h
        obtain ⟨entries, he⟩ := ih (Nat.succ.inj hlen) hrest
        simp only [he]
        exact ⟨_, rfl⟩

theorem lookup_zip_numbers {start : Nat} {elements : List Element} {reference : UInt32}
    (hbound : start + elements.length ≤ UInt32.size)
    (h : reference ∈ numbers start elements.length) :
    ((numbers start elements.length).zip elements).lookup reference =
      elements[reference.toNat - start]? := by
  induction elements generalizing start with
  | nil => simp [numbers] at h
  | cons element rest ih =>
    rw [List.length_cons] at hbound h ⊢
    have hstart : (UInt32.ofNat start).toNat = start := UInt32.toNat_ofNat_of_lt' (by omega)
    rw [numbers, List.range'_succ, List.map_cons, List.mem_cons] at h
    rw [numbers, List.range'_succ, List.map_cons, List.zip_cons_cons, List.lookup_cons]
    by_cases he : reference = UInt32.ofNat start
    · subst he
      simp [hstart]
    · have hmem : reference ∈ numbers (start + 1) rest.length := h.resolve_left he
      have hrange : reference.toNat ∈ List.range' (start + 1) rest.length := by
        rw [← map_toNat_numbers (by omega)]
        exact List.mem_map_of_mem hmem
      have hle := (List.mem_range'_1.mp hrange).1
      have hsub : reference.toNat - start = reference.toNat - (start + 1) + 1 := by omega
      rw [beq_false_of_ne he, hsub, List.getElem?_cons_succ]
      exact ih (by omega) hmem

end Pending

open Pending

def handedOut (payloads : List Element) : Pending :=
  ⟨UInt32.ofNat payloads.length, (numbers 1 payloads.length).zip payloads⟩

theorem keys_handedOut (payloads : List Element) :
    (handedOut payloads).keys = numbers 1 payloads.length :=
  List.map_fst_zip (by simp [numbers])

theorem keys_repeat {payloads : List Element} {n : Nat} (h : n + UInt32.size < payloads.length) :
    (handedOut payloads).keys[n + UInt32.size]? = (handedOut payloads).keys[n]? := by
  have hsame : UInt32.ofNat (1 + 1 * (n + UInt32.size)) = UInt32.ofNat (1 + 1 * n) := by
    rw [← UInt32.toNat_inj, UInt32.toNat_ofNat', UInt32.toNat_ofNat']
    simp only [UInt32.size]
    omega
  rw [keys_handedOut, numbers, List.getElem?_map, List.getElem?_map, List.getElem?_range' h,
    List.getElem?_range' (by omega), Option.map_some, Option.map_some, hsame]

theorem original_handedOut {payloads : List Element} {reference : UInt32}
    (few : payloads.length < UInt32.size) (h : reference ∈ numbers 1 payloads.length) :
    (handedOut payloads).original reference = nth payloads reference := by
  rw [original, handedOut, lookup_zip_numbers (by omega) h, nth]

theorem nodup_numbers {start count : Nat} (h : start + count ≤ UInt32.size) :
    (numbers start count).Nodup := by
  refine List.Nodup.of_map UInt32.toNat ?_
  rw [map_toNat_numbers h]
  exact List.nodup_range'

theorem exactlyOnce_iff {count : Nat} {elements : List Element} (h : count < UInt32.size) :
    ExactlyOnce count elements ↔
      ((references elements).Nodup ∧
        ∀ reference ∈ references elements, reference ∈ numbers 1 count) ∧
        ∀ reference ∈ numbers 1 count, reference ∈ references elements := by
  have hnodup : (numbers 1 count).Nodup := nodup_numbers (by omega)
  rw [ExactlyOnce, ← map_toNat_numbers (by omega),
    List.map_perm_map_iff fun _ _ => UInt32.toNat_inj.mp]
  constructor
  · intro hperm
    exact ⟨⟨hperm.nodup_iff.mpr hnodup, fun _ => hperm.mem_iff.mp⟩, fun _ => hperm.mem_iff.mpr⟩
  · rintro ⟨⟨hrefs, hsub⟩, hsup⟩
    exact (List.perm_ext_iff_of_nodup hrefs hnodup).mpr fun r => ⟨hsub r, hsup r⟩

namespace Pass

def rereading (grammar : Grammar) (rule : Rule) (options : Options) (lines : List Line) :
    Codec Line := do
  let text ← monadLift (serialize lines)
  parsePayloads (grammar rule options)
  let parsed ← ExceptT.mk (return grammar rule options text)
  return merge (← restore parsed)

theorem reread_eq_match (grammar : Grammar) (rule : Rule) (options : Options)
    (lines : List Line) :
    reread grammar rule options lines =
      match runFrom Pending.empty (rereading grammar rule options lines) with
      | (.ok line, pending) => pending.finish.map fun _ => line
      | (.error fault, _) => .error fault :=
  rfl

variable {grammar : Grammar} {rule : Rule} {options : Options} {lines : List Line}
  {payloads parsed : List Element}

theorem runFrom_rereading
    (hp : (setAside lines).mapM (parsePayload (grammar rule options)) = .ok payloads) :
    runFrom Pending.empty (rereading grammar rule options lines) =
      runFrom (handedOut payloads) (do
        let parsed ← ExceptT.mk (return grammar rule options (serialized lines))
        return merge (← restore parsed)) := by
  have hlen := length_of_mapM_ok hp
  have hnumbers : (numbers 1 (setAside lines).length).length = (setAside lines).length := by
    simp [numbers]
  have hpay : runFrom ⟨UInt32.ofNat (setAside lines).length,
      (numbers 1 (setAside lines).length).zip (setAside lines)⟩
        (parsePayloads (grammar rule options)) = (.ok (), handedOut payloads) := by
    rw [parsePayloads, runFrom_mk]
    change ((parseEntries _ _).1, _) = _
    rw [parseEntries_of_mapM hnumbers hp, handedOut, hlen]
  rw [rereading, runFrom_bind_ok (runFrom_serialize lines), runFrom_bind_ok hpay]

theorem reread_eq
    (hp : (setAside lines).mapM (parsePayload (grammar rule options)) = .ok payloads)
    (hg : grammar rule options (serialized lines) = .ok parsed) :
    reread grammar rule options lines =
      match runFrom (handedOut payloads) (restore parsed) with
      | (.ok restored, pending) => pending.finish.map fun _ => merge restored
      | (.error fault, _) => .error fault := by
  have hparsed (pending : Pending) :
      runFrom pending (ExceptT.mk (pure (Except.ok parsed)) : Codec (List Element)) =
        (.ok parsed, pending) := rfl
  rw [reread_eq_match, runFrom_rereading hp, hg, runFrom_bind_ok (hparsed _), bind_pure_comp,
    runFrom_map]
  cases runFrom _ (restore parsed) with
  | mk outcome pending => cases outcome <;> rfl

theorem exists_payloads_of_reread {line : Line} (h : reread grammar rule options lines = .ok line) :
    ∃ payloads, (setAside lines).mapM (parsePayload (grammar rule options)) = .ok payloads := by
  cases hp : (setAside lines).mapM (parsePayload (grammar rule options)) with
  | ok payloads => exact ⟨payloads, rfl⟩
  | error fault =>
    have hnumbers : (numbers 1 (setAside lines).length).length = (setAside lines).length := by
      simp [numbers]
    obtain ⟨entries, he⟩ := parseEntries_error_of_mapM hnumbers hp
    have hpay : runFrom ⟨UInt32.ofNat (setAside lines).length,
        (numbers 1 (setAside lines).length).zip (setAside lines)⟩
          (parsePayloads (grammar rule options)) =
        (.error fault, ⟨UInt32.ofNat (setAside lines).length, entries⟩) := by
      rw [parsePayloads, runFrom_mk]
      change ((parseEntries _ _).1, _) = _
      rw [he]
    rw [reread_eq_match, rereading, runFrom_bind_ok (runFrom_serialize lines),
      runFrom_bind_error hpay] at h
    cases h

theorem exists_parsed_of_reread {line : Line} (h : reread grammar rule options lines = .ok line)
    (hp : (setAside lines).mapM (parsePayload (grammar rule options)) = .ok payloads) :
    ∃ parsed, grammar rule options (serialized lines) = .ok parsed := by
  cases hg : grammar rule options (serialized lines) with
  | ok parsed => exact ⟨parsed, rfl⟩
  | error fault =>
    have hparsed (pending : Pending) :
        runFrom pending (ExceptT.mk (pure (Except.error fault)) : Codec (List Element)) =
          (.error fault, pending) := rfl
    rw [reread_eq_match, runFrom_rereading hp, hg, runFrom_bind_error (hparsed _)] at h
    cases h

theorem eq_of_reread {line : Line} (h : reread grammar rule options lines = .ok line)
    (hp : (setAside lines).mapM (parsePayload (grammar rule options)) = .ok payloads)
    (hg : grammar rule options (serialized lines) = .ok parsed) :
    line = merge (putBack (handedOut payloads).original parsed) := by
  rw [reread_eq hp hg] at h
  by_cases hrefs : (references parsed).Nodup ∧
      ∀ reference ∈ references parsed, reference ∈ (handedOut payloads).keys
  · rw [runFrom_restore hrefs.1 hrefs.2] at h
    dsimp only at h
    cases hfinish : ((handedOut payloads).without (references parsed)).finish with
    | error fault => rw [hfinish] at h; cases h
    | ok _ => rw [hfinish] at h; exact (Except.ok.inj h).symm
  · obtain ⟨reference, pending, he⟩ := runFrom_restore_error hrefs
    rw [he] at h
    cases h

theorem reread_eq_ok (few : (setAside lines).length < UInt32.size)
    (hp : (setAside lines).mapM (parsePayload (grammar rule options)) = .ok payloads)
    (hg : grammar rule options (serialized lines) = .ok parsed)
    (once : ExactlyOnce (setAside lines).length parsed) :
    reread grammar rule options lines = .ok (merge (putBack (nth payloads) parsed)) := by
  rw [← length_of_mapM_ok hp] at few once
  obtain ⟨⟨distinct, known⟩, complete⟩ := (exactlyOnce_iff few).mp once
  rw [← keys_handedOut] at known complete
  have hback : putBack (handedOut payloads).original parsed = putBack (nth payloads) parsed :=
    substituted_congr _ _ fun reference hr =>
      original_handedOut few (keys_handedOut payloads ▸ known reference hr)
  rw [reread_eq hp hg, runFrom_restore distinct known, hback]
  exact congrArg (Except.map _) (finish_without complete)

theorem reread_eq_error (few : (setAside lines).length < UInt32.size)
    (hp : (setAside lines).mapM (parsePayload (grammar rule options)) = .ok payloads)
    (hg : grammar rule options (serialized lines) = .ok parsed)
    (h : ¬ ExactlyOnce (setAside lines).length parsed) :
    ∃ fault, reread grammar rule options lines = .error fault ∧ fault.kind = .placeholder := by
  rw [← length_of_mapM_ok hp] at few h
  rw [exactlyOnce_iff few, not_and_or, ← keys_handedOut] at h
  rw [reread_eq hp hg]
  by_cases hrefs : (references parsed).Nodup ∧
      ∀ reference ∈ references parsed, reference ∈ (handedOut payloads).keys
  · obtain ⟨left, hfinish⟩ := finish_without_error (h.resolve_left (not_not_intro hrefs))
    rw [runFrom_restore hrefs.1 hrefs.2]
    exact ⟨_, congrArg (Except.map _) hfinish, rfl⟩
  · obtain ⟨reference, pending, he⟩ := runFrom_restore_error hrefs
    rw [he]
    exact ⟨_, rfl, rfl⟩

theorem reread_ok_iff_exactlyOnce (grammar : Grammar) (rule : Rule) (options : Options)
    (lines : List Line) {payloads parsed : List Element}
    (few : (setAside lines).length < UInt32.size)
    (hp : (setAside lines).mapM (parsePayload (grammar rule options)) = .ok payloads)
    (hg : grammar rule options (serialized lines) = .ok parsed) :
    (∀ line, reread grammar rule options lines = .ok line ↔
      ExactlyOnce (setAside lines).length parsed ∧
        line = merge (putBack (nth payloads) parsed)) ∧
    (¬ ExactlyOnce (setAside lines).length parsed →
      ∃ fault, reread grammar rule options lines = .error fault ∧
        fault.kind = .placeholder) := by
  refine ⟨fun line => ⟨fun h => ?_, ?_⟩, reread_eq_error few hp hg⟩
  · by_cases once : ExactlyOnce (setAside lines).length parsed
    · rw [reread_eq_ok few hp hg once] at h
      exact ⟨once, (Except.ok.inj h).symm⟩
    · obtain ⟨fault, he, -⟩ := reread_eq_error few hp hg once
      rw [he] at h
      cases h
  · rintro ⟨once, rfl⟩
    exact reread_eq_ok few hp hg once

theorem reread_moved_and_nested :
    reread (fun _ _ _ => .ok [.quotation .single [.placeholder 2], .placeholder 1]) .plain ⟨none⟩
        [[.lineBreak, .text " and "], [.symbol "(C)"]] =
      .ok [.quotation .single [.symbol "(C)"], .lineBreak] := by
  have hp : (setAside [[.lineBreak, .text " and "], [.symbol "(C)"]]).mapM
      (parsePayload fun _ => .ok [.quotation .single [.placeholder 2], .placeholder 1]) =
        .ok [.lineBreak, .symbol "(C)"] := rfl
  refine ((reread_ok_iff_exactlyOnce _ .plain ⟨none⟩ _ (by decide) hp rfl).1 _).mpr ⟨?_, ?_⟩
  · simp [ExactlyOnce, references, gather_eq, Element.gather, placeholder?, Element.children,
      setAside, Element.isText]
    decide
  · simp [putBack, substituted_eq, placeholder?, Element.children, Element.withChildren, nth, merge]

end Pass

end Manuscript

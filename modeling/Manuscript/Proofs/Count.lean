import Manuscript.Count

namespace Manuscript.Count

inductive Precedes : Count → Count → Prop
  | number {n m : Int64} : m.toInt = n.toInt + 1 → Precedes (.number n) (.number m)
  | character {c d : Char} : c < d → (∀ e, c < e → d ≤ e) → Precedes (.character c) (.character d)

theorem Precedes.shown {current value : Count} (h : current.Precedes value) :
    ∃ shown, value.shown? = some shown := by
  cases h <;> exact ⟨_, rfl⟩

def lastChar : Char := Char.ofNat 0x10FFFF

def Last (value : Count) : Prop :=
  value = .number Int64.maxValue ∨ value = .character lastChar ∨ ∃ s, value = .text s

theorem toInt_add_one {n : Int64} (h : n ≠ Int64.maxValue) : (n + 1).toInt = n.toInt + 1 := by
  have hle := n.toInt_le
  have hge := n.le_toInt
  have hne : n.toInt ≠ Int64.maxValue.toInt := fun he => h (Int64.toInt_inj.mp he)
  have hone : (1 : Int64).toInt = 1 := rfl
  rw [Int64.toInt_maxValue] at hle hne
  rw [Int64.toInt_add, hone]
  exact Int.bmod_eq_of_le (by omega) (by omega)

theorem lt_iff_toNat_lt {c d : Char} : c < d ↔ c.toNat < d.toNat := Iff.rfl

theorem le_iff_toNat_le {c d : Char} : c ≤ d ↔ c.toNat ≤ d.toNat := Iff.rfl

theorem toNat_ofNat {n : Nat} (h : n.isValidChar) : (Char.ofNat n).toNat = n := by
  rw [Char.ofNat, dif_pos h]
  rfl

theorem isValidChar_toNat (c : Char) : c.toNat.isValidChar := c.valid

theorem nextChar?_spec (c : Char) :
    (c = lastChar ∧ nextChar? c = none) ∨
      ∃ d, nextChar? c = some d ∧ c < d ∧ ∀ e, c < e → d ≤ e := by
  have hc := isValidChar_toNat c
  rw [nextChar?]
  by_cases hgap : c.toNat + 1 = 0xD800
  · -- From here to U+DFFF there are no characters.
    refine .inr ⟨Char.ofNat 0xE000, if_pos hgap, ?_, fun e he => ?_⟩
    · rw [lt_iff_toNat_lt, toNat_ofNat (by decide)]
      omega
    · have hvalid := isValidChar_toNat e
      rw [lt_iff_toNat_lt] at he
      rw [le_iff_toNat_le, toNat_ofNat (by decide)]
      rw [Nat.isValidChar] at hvalid
      omega
  · rw [if_neg hgap]
    by_cases hlast : c.toNat = 0x10FFFF
    · refine .inl ⟨Char.toNat_inj.mp ?_, if_pos hlast⟩
      rw [lastChar, toNat_ofNat (by decide), hlast]
    · have hnext : (c.toNat + 1).isValidChar := by
        rw [Nat.isValidChar] at hc ⊢
        omega
      refine .inr ⟨Char.ofNat (c.toNat + 1), if_neg hlast, ?_, fun e he => ?_⟩
      · rw [lt_iff_toNat_lt, toNat_ofNat hnext]
        omega
      · rw [lt_iff_toNat_lt] at he
        rw [le_iff_toNat_le, toNat_ofNat hnext]
        omega

theorem nextChar?_eq_some_iff {c d : Char} :
    nextChar? c = some d ↔ c < d ∧ ∀ e, c < e → d ≤ e := by
  rcases nextChar?_spec c with ⟨rfl, hnone⟩ | ⟨next, hnext, hlt, hleast⟩
  · rw [hnone]
    refine iff_of_false nofun fun ⟨hlt, _⟩ => ?_
    have hd := isValidChar_toNat d
    rw [lt_iff_toNat_lt, lastChar, toNat_ofNat (by decide)] at hlt
    rw [Nat.isValidChar] at hd
    omega
  · rw [hnext, Option.some.injEq]
    constructor
    · rintro rfl
      exact ⟨hlt, hleast⟩
    · rintro ⟨hd, hdleast⟩
      exact Char.le_antisymm (hleast d hd) (hdleast next hlt)

theorem nextChar?_eq_none_iff {c : Char} : nextChar? c = none ↔ c = lastChar := by
  rcases nextChar?_spec c with ⟨rfl, hnone⟩ | ⟨next, hnext, hlt, -⟩
  · exact iff_of_true hnone rfl
  · rw [hnext]
    refine iff_of_false nofun ?_
    rintro rfl
    have hvalid := isValidChar_toNat next
    rw [lt_iff_toNat_lt, lastChar, toNat_ofNat (by decide)] at hlt
    rw [Nat.isValidChar] at hvalid
    omega

theorem next?_eq_some_iff {current value : Count} :
    current.next? = some value ↔ current.Precedes value := by
  cases current with
  | number n =>
    rw [next?]
    constructor
    · intro h
      split at h
      · cases h
      · next hn =>
        obtain rfl := Option.some.inj h
        exact .number (toInt_add_one hn)
    · rintro (@⟨_, m, hm⟩ | _)
      have hn : n ≠ Int64.maxValue := by
        rintro rfl
        have hle := m.toInt_le
        omega
      have hnext : m = n + 1 := Int64.toInt_inj.mp (hm.trans (toInt_add_one hn).symm)
      rw [if_neg hn, hnext]
  | character c =>
    rw [next?, Option.map_eq_some_iff]
    constructor
    · rintro ⟨d, hd, rfl⟩
      obtain ⟨hlt, hleast⟩ := nextChar?_eq_some_iff.mp hd
      exact .character hlt hleast
    · rintro (_ | ⟨hlt, hleast⟩)
      exact ⟨_, nextChar?_eq_some_iff.mpr ⟨hlt, hleast⟩, rfl⟩
  | text s => exact iff_of_false nofun nofun

theorem next?_eq_none_iff {current : Count} : current.next? = none ↔ current.Last := by
  cases current with
  | number n => simp [next?, Last]
  | character c => simp [next?, Last, nextChar?_eq_none_iff]
  | text s => simp [next?, Last]

end Manuscript.Count

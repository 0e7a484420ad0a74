namespace Manuscript.Decimal

structure Binary where
  significand : Nat
  exponent : Int
  deriving DecidableEq, Repr

def significandLimit : Nat := 0x20000000000000

def leastExponent : Int := -1074

def greatestExponent : Int := 971

def powerFraction (base : Nat) (exponent : Int) : Nat × Nat :=
  if 0 ≤ exponent then (base.pow exponent.toNat, 1) else (1, base.pow (-exponent).toNat)

def roundDiv (n d : Nat) : Nat :=
  let q := n / d
  let r := n % d
  if 2 * r < d then q else if d < 2 * r then q + 1 else if q % 2 = 0 then q else q + 1

def nearest? (n d : Nat) : Option Binary :=
  let estimate : Int := (Nat.log2 n : Int) - Nat.log2 d - 52
  let low := max leastExponent (estimate - 1)
  let at_ (exponent : Int) : Nat :=
    let (a, b) := powerFraction 2 exponent
    roundDiv (n * b) (d * a)
  let exponent := ([low, low + 1, low + 2].find? fun e => at_ e < significandLimit).getD (low + 2)
  let significand := at_ exponent
  if greatestExponent < exponent then none else some ⟨significand, exponent⟩

structure Shortest where
  digits : Nat
  exponent : Int
  deriving DecidableEq, Repr

def lowerGap (b : Binary) : Nat :=
  if 2 * b.significand = significandLimit && leastExponent < b.exponent then 1 else 2

def onGrid? (b : Binary) (k : Int) : Option Nat :=
  let (p, q) := powerFraction 2 (b.exponent - 2)
  let (r, s) := powerFraction 10 k
  let place := p * s
  let grid := r * q
  let value := 4 * b.significand * place
  let low := (4 * b.significand - lowerGap b) * place
  let high := (4 * b.significand + 2) * place
  let inside (c : Nat) : Bool :=
    if b.significand % 2 = 0 then low ≤ c * grid && c * grid ≤ high
    else low < c * grid && c * grid < high
  let below := value / grid
  let first := roundDiv value grid
  let second := if first = below then below + 1 else below
  if inside first then some first else if inside second then some second else none

def magnitude (b : Binary) : Nat → Int → Int
  | 0, e => e
  | fuel + 1, e =>
      let (p, q) := powerFraction 2 b.exponent
      let (r, s) := powerFraction 10 e
      if r * q ≤ b.significand * p * s then e else magnitude b fuel (e - 1)

def dropZeros : Nat → Nat → Int → Shortest
  | 0, digits, exponent => ⟨digits, exponent⟩
  | fuel + 1, digits, exponent =>
      if digits ≠ 0 && digits % 10 = 0 then dropZeros fuel (digits / 10) (exponent + 1)
      else ⟨digits, exponent⟩

def shortest (b : Binary) : Shortest :=
  let top := magnitude b 640 308
  let grids := (List.range 17).map fun (n : Nat) => top - (n : Int)
  match grids.findSome? fun k => (onGrid? b k).map fun c => (c, k) with
  | some (c, k) => dropZeros 20 c k
  | none => ⟨0, 0⟩

def Shortest.text (d : Shortest) : String :=
  let ds := Nat.toDigits 10 d.digits
  let point := (ds.length : Int) + d.exponent
  if 0 ≤ d.exponent && point ≤ 16 then
    String.ofList (ds ++ List.replicate d.exponent.toNat '0') ++ ".0"
  else if 0 < point && point ≤ 16 then
    String.ofList (ds.take point.toNat) ++ "." ++ String.ofList (ds.drop point.toNat)
  else if -5 < point && point ≤ 0 then
    "0." ++ String.ofList (List.replicate (-point).toNat '0' ++ ds)
  else
    let fraction := if ds.length = 1 then "" else "." ++ String.ofList (ds.drop 1)
    String.ofList (ds.take 1) ++ fraction ++ "e" ++ toString (point - 1)

def text? (digits : Nat) (exponent : Int) : Option String :=
  let length : Int := (Nat.toDigits 10 digits).length
  if digits = 0 || length + exponent < -330 then some "0.0"
  else if 310 < length + exponent then none
  else
    let (r, s) := powerFraction 10 exponent
    match nearest? (digits * r) s with
    | none => none
    | some b => if b.significand = 0 then some "0.0" else some (shortest b).text

end Manuscript.Decimal

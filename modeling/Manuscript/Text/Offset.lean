namespace Manuscript.Text

def byteCount : List Char → Nat
  | [] => 0
  | c :: cs => c.utf8Size + byteCount cs

def offsetsOf (c : Char) (start : Nat) : List Char → List Nat
  | [] => []
  | d :: ds =>
      let rest := offsetsOf c (start + d.utf8Size) ds
      if d = c then start :: rest else rest

@[simp] theorem byteCount_nil : byteCount [] = 0 := rfl

@[simp] theorem byteCount_cons (c : Char) (cs : List Char) :
    byteCount (c :: cs) = c.utf8Size + byteCount cs := rfl

theorem byteCount_append (as bs : List Char) :
    byteCount (as ++ bs) = byteCount as + byteCount bs := by
  induction as with
  | nil => simp
  | cons a as ih => simp [ih, Nat.add_assoc]

theorem utf8ByteSize_ofList (cs : List Char) :
    (String.ofList cs).utf8ByteSize = byteCount cs := by
  induction cs with
  | nil => rfl
  | cons c cs ih =>
    rw [← List.singleton_append, String.ofList_append, String.utf8ByteSize_append, ih]
    simp

theorem length_offsetsOf (c : Char) (start : Nat) (cs : List Char) :
    (offsetsOf c start cs).length = cs.count c := by
  induction cs generalizing start with
  | nil => rfl
  | cons d ds ih =>
    simp only [offsetsOf]
    by_cases h : d = c <;> simp [h, ih]

end Manuscript.Text

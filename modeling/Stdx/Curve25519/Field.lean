import Stdx.BigNumber.Arithmetic

/-!
# The field of Curve25519

`FieldElement` of `curve25519.rs`: four limbs, the schoolbook product and its reduction by
`2^256 ≡ 38`.  An index loop over the limbs is a recursion over them.
-/

namespace Stdx.Curve25519

open Stdx.Foundation Stdx.BigNumber

abbrev U256 := Uint 256 4

def P : U256 :=
  ⟨[0xffffffffffffffed, 0xffffffffffffffff, 0xffffffffffffffff, 0x7fffffffffffffff], rfl⟩

structure FieldElement where
  value : U256
  deriving DecidableEq

def FieldElement.toNat (a : FieldElement) : Nat := a.value.value

/-! ## Products -/

def mul4x4 (a b : Limbs) : Limbs :=
  productRows (List.replicate 8 0) a b

def square4 (a : Limbs) : Limbs := mul4x4 a a

/-! ## Folding -/

/-- `p[i] += 38 * p[i + 4]`, with the carry. -/
def foldHigh : Limbs → Limbs → UInt64 → Limbs × UInt64
  | low :: lows, high :: highs, carry =>
    let (v, c) := mac low 38 high carry
    let (rest, carryOut) := foldHigh lows highs c
    (v :: rest, carryOut)
  | _, _, carry => ([], carry)

/-- `p[i] += extra`, with the carry as the next `extra`. -/
def addExtra : Limbs → UInt64 → Limbs × UInt64
  | [], extra => ([], extra)
  | word :: words, extra =>
    let (v, c) := adc word extra 0
    let (rest, carryOut) := addExtra words c
    (v :: rest, carryOut)

def fold38 (p : Limbs) : Limbs :=
  let (low, carry) := foldHigh (p.take 4) (p.drop 4) 0
  let (low, extra) := addExtra low (carry * 38)
  if 0 < extra then
    match low with
    | [] => []
    | word :: words => (adc word 38 0).1 :: words
  else low

theorem foldHigh_length (low high : Limbs) (carry : UInt64) (h : low.length = high.length) :
    (foldHigh low high carry).1.length = low.length := by
  induction low generalizing high carry with
  | nil => rfl
  | cons word low ih =>
    cases high with
    | nil => simp at h
    | cons other high => simpa [foldHigh] using ih high _ (by simpa using h)

theorem addExtra_length (words : Limbs) (extra : UInt64) :
    (addExtra words extra).1.length = words.length := by
  induction words generalizing extra with
  | nil => rfl
  | cons word words ih => simpa [addExtra] using ih _

theorem fold38_length {p : Limbs} (h : p.length = 8) : (fold38 p).length = 4 := by
  have hlength : (foldHigh (p.take 4) (p.drop 4) 0).1.length = 4 := by
    rw [foldHigh_length _ _ _ (by rw [List.length_take, List.length_drop, h]; rfl),
      List.length_take, h]
    rfl
  have hextra := addExtra_length (foldHigh (p.take 4) (p.drop 4) 0).1
    ((foldHigh (p.take 4) (p.drop 4) 0).2 * 38)
  rw [hlength] at hextra
  unfold fold38
  simp only
  split
  · split
    · next heq => simp [heq] at hextra
    · next heq =>
      rw [heq] at hextra
      exact hextra
  · exact hextra

/-! ## What they compute -/

theorem mul4x4_spec {a b : Limbs} (ha : a.length = 4) (hb : b.length = 4) :
    (mul4x4 a b).length = 8 ∧ limbsValue (mul4x4 a b) = limbsValue a * limbsValue b := by
  have hspec := productRows_zeros a b
  rwa [ha, hb] at hspec

theorem mul4x4_length {a b : Limbs} (ha : a.length = 4) (hb : b.length = 4) :
    (mul4x4 a b).length = 8 :=
  (mul4x4_spec ha hb).1

theorem mul4x4_value {a b : Limbs} (ha : a.length = 4) (hb : b.length = 4) :
    limbsValue (mul4x4 a b) = limbsValue a * limbsValue b :=
  (mul4x4_spec ha hb).2

/-! ## Elements -/

namespace FieldElement

def reduce38Relaxed (limbs : Limbs) (h : limbs.length = 8) : U256 :=
  ⟨fold38 limbs, fold38_length h⟩

def reduce38Full (limbs : Limbs) (h : limbs.length = 8) : U256 :=
  let result : U256 := ⟨fold38 limbs, fold38_length h⟩
  let (sub, borrow) := result.subRaw P
  let result := Uint.ctSelect sub result (borrow == 0)
  let (sub, borrow) := result.subRaw P
  Uint.ctSelect sub result (borrow == 0)

def mul (a rhs : FieldElement) : FieldElement :=
  ⟨reduce38Full (mul4x4 a.value.limbs rhs.value.limbs)
    (mul4x4_length a.value.length_eq rhs.value.length_eq)⟩

def mulRelaxed (a rhs : FieldElement) : FieldElement :=
  ⟨reduce38Relaxed (mul4x4 a.value.limbs rhs.value.limbs)
    (mul4x4_length a.value.length_eq rhs.value.length_eq)⟩

def square (a : FieldElement) : FieldElement :=
  ⟨reduce38Full (square4 a.value.limbs) (mul4x4_length a.value.length_eq a.value.length_eq)⟩

def squareRelaxed (a : FieldElement) : FieldElement :=
  ⟨reduce38Relaxed (square4 a.value.limbs) (mul4x4_length a.value.length_eq a.value.length_eq)⟩

end FieldElement

end Stdx.Curve25519

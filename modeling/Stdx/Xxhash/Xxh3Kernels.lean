import Stdx.Xxhash.Classic

/-!
# The kernels of XXH3

Eight accumulators take a stripe of 64 octets with 64 octets of the secret, and are
scrambled at the end of a block.  The scalar kernel and the four vector kernels are
modelled separately; all of them compute `accumulated` and `scrambled`.  A vector
register is the function from its 64-bit lanes.
-/

namespace Stdx.Xxhash.Xxh3

open Stdx.Foundation

local instance neZero_two : NeZero 2 := ⟨by decide⟩
local instance neZero_four : NeZero 4 := ⟨by decide⟩
local instance neZero_eight : NeZero 8 := ⟨by decide⟩

def STRIPE_LEN : Nat := 64
def SECRET_CONSUME_RATE : Nat := 8
def PRIME32_1 : BitVec 64 := 0x9E3779B1

/-- `[u64; ACC_NB]` -/
abbrev Acc := Fin 8 → BitVec 64

def wordAt (data : Bytes) (offset : Nat) : BitVec 64 :=
  BitVec.ofNat 64 (leValue ((data.drop offset).take 8))

def read64le (data : Bytes) (offset : Nat) : Option (BitVec 64) := readWord 64 data offset

def read32le (data : Bytes) (offset : Nat) : Option (BitVec 32) := readWord 32 data offset

theorem read64le_eq {data : Bytes} {offset : Nat} (h : offset + 8 ≤ data.length) :
    read64le data offset = some (wordAt data offset) := if_pos h

theorem read32le_isSome {data : Bytes} {offset : Nat} (h : offset + 4 ≤ data.length) :
    (read32le data offset).isSome := readWord_isSome h

theorem wordAt_drop (data : Bytes) (start offset : Nat) :
    wordAt (data.drop start) offset = wordAt data (start + offset) := by
  rw [wordAt, wordAt, List.drop_drop]

theorem wordAt_take (data : Bytes) {size offset : Nat} (h : offset + 8 ≤ size) :
    wordAt (data.take size) offset = wordAt data offset := by
  rw [wordAt, wordAt, List.drop_take, List.take_take, Nat.min_eq_left (by omega)]

def xorshift64 (value : BitVec 64) (shift : Nat) : BitVec 64 := value ^^^ (value >>> shift)

def mult32To64 (left right : BitVec 32) : BitVec 64 := left.setWidth 64 * right.setWidth 64

def lowHalf (x : BitVec 64) : BitVec 32 := x.setWidth 32

def highHalf (x : BitVec 64) : BitVec 32 := (x >>> 32).setWidth 32

/-! ## What a kernel computes -/

def accumulated (acc : Acc) (data key : Bytes) : Acc := fun j =>
  let dataKey := wordAt data (8 * j.val) ^^^ wordAt key (8 * j.val)
  acc j + wordAt data (8 * (j ^^^ 1).val) + mult32To64 (lowHalf dataKey) (highHalf dataKey)

def scrambled (acc : Acc) (key : Bytes) : Acc := fun j =>
  (xorshift64 (acc j) 47 ^^^ wordAt key (8 * j.val)) * PRIME32_1

/-! ## The scalar kernel -/

def accumulate512Scalar (acc : Acc) (input : Bytes) (inputOff : Nat) (secret : Bytes)
    (secretOff : Nat) : Option Acc :=
  (List.finRange 8).foldlM (fun acc i => do
    let dataVal ← read64le input (inputOff + i.val * 8)
    let key ← read64le secret (secretOff + i.val * 8)
    let dataKey := dataVal ^^^ key
    let acc := Function.update acc (i ^^^ 1) (acc (i ^^^ 1) + dataVal)
    some (Function.update acc i (acc i + mult32To64 (lowHalf dataKey) (highHalf dataKey)))) acc

def scrambleAccScalar (acc : Acc) (secret : Bytes) (secretOff : Nat) : Option Acc :=
  (List.finRange 8).foldlM (fun acc i => do
    let key ← read64le secret (secretOff + i.val * 8)
    let val := xorshift64 (acc i) 47 ^^^ key
    some (Function.update acc i (val * PRIME32_1))) acc

theorem foldlM_some_eq {α β : Type*} (f : α → β → α) (a : α) (l : List β) :
    l.foldlM (fun a b => some (f a b)) a = some (l.foldl f a) := by
  induction l generalizing a with
  | nil => rfl
  | cons b l ih => exact ih (f a b)

theorem foldl_accumulate (acc : Acc) (word product : Fin 8 → BitVec 64) :
    (List.finRange 8).foldl (fun acc i =>
      let acc := Function.update acc (i ^^^ 1) (acc (i ^^^ 1) + word i)
      Function.update acc i (acc i + product i)) acc =
      fun j => acc j + word (j ^^^ 1) + product j := by
  have hlanes : List.finRange 8 = [0, 1, 2, 3, 4, 5, 6, 7] := by decide
  rw [hlanes]
  funext j
  fin_cases j <;> simp [Function.update] <;> ac_rfl

theorem foldl_lanes (f : Fin 8 → BitVec 64 → BitVec 64) (acc : Acc) :
    (List.finRange 8).foldl (fun acc i => Function.update acc i (f i (acc i))) acc =
      fun j => f j (acc j) := by
  have hlanes : List.finRange 8 = [0, 1, 2, 3, 4, 5, 6, 7] := by decide
  rw [hlanes]
  funext j
  fin_cases j <;> simp [Function.update]

theorem accumulate512Scalar_eq (acc : Acc) {input secret : Bytes} {inputOff secretOff : Nat}
    (hinput : inputOff + 64 ≤ input.length) (hsecret : secretOff + 64 ≤ secret.length) :
    accumulate512Scalar acc input inputOff secret secretOff =
      some (accumulated acc (input.drop inputOff) (secret.drop secretOff)) := by
  have hread : ∀ i : Fin 8, read64le input (inputOff + i.val * 8) =
      some (wordAt (input.drop inputOff) (8 * i.val)) := by
    intro i
    rw [read64le_eq (by omega), wordAt_drop, Nat.mul_comm]
  have hkey : ∀ i : Fin 8, read64le secret (secretOff + i.val * 8) =
      some (wordAt (secret.drop secretOff) (8 * i.val)) := by
    intro i
    rw [read64le_eq (by omega), wordAt_drop, Nat.mul_comm]
  unfold accumulate512Scalar accumulated
  generalize input.drop inputOff = data at hread ⊢
  generalize secret.drop secretOff = key at hkey ⊢
  simp only [hread, hkey, Option.bind_eq_bind, Option.bind_some]
  rw [foldlM_some_eq]
  exact congrArg some (foldl_accumulate acc (fun i => wordAt data (8 * i.val)) _)

theorem scrambleAccScalar_eq (acc : Acc) {secret : Bytes} {secretOff : Nat}
    (hsecret : secretOff + 64 ≤ secret.length) :
    scrambleAccScalar acc secret secretOff = some (scrambled acc (secret.drop secretOff)) := by
  have hkey : ∀ i : Fin 8, read64le secret (secretOff + i.val * 8) =
      some (wordAt (secret.drop secretOff) (8 * i.val)) := by
    intro i
    rw [read64le_eq (by omega), wordAt_drop, Nat.mul_comm]
  unfold scrambleAccScalar scrambled
  simp only [hkey, Option.bind_eq_bind, Option.bind_some]
  rw [foldlM_some_eq]
  exact congrArg some (foldl_lanes (fun i x =>
    (xorshift64 x 47 ^^^ wordAt (secret.drop secretOff) (8 * i.val)) * PRIME32_1) acc)

/-! ## Vector registers -/

abbrev Vec (n : Nat) := Fin n → BitVec 64

section Vectors

variable {n : Nat}

/-- `_mm256_loadu_si256`, `_mm512_loadu_si512`, `vld1q_u64`, `v128_load`; `none` out of
range. -/
def loadVec (n : Nat) (data : Bytes) (offset : Nat) : Option (Vec n) :=
  if offset + 8 * n ≤ data.length then some fun i => wordAt data (offset + 8 * i.val) else none

def loadAcc (n : Nat) (acc : Acc) (lane : Nat) : Vec n := fun i => acc (Fin.ofNat 8 (lane + i.val))

def storeAcc (acc : Acc) (lane : Nat) (v : Vec n) : Acc := fun j =>
  if h : lane ≤ j.val ∧ j.val < lane + n then v ⟨j.val - lane, by omega⟩ else acc j

def forVectors (n count : Nat) (body : Nat → Vec n → Option (Vec n)) (acc : Acc) : Option Acc :=
  (List.range count).foldlM (fun acc k => do
    let result ← body (k * n) (loadAcc n acc (k * n))
    some (storeAcc acc (k * n) result)) acc

theorem forVectors_eq {count : Nat} (hsize : count * n = 8)
    {body : Nat → Vec n → Option (Vec n)} (g : Fin 8 → BitVec 64 → BitVec 64)
    (hbody : ∀ k < count, ∀ v, body (k * n) v =
      some fun i => g (Fin.ofNat 8 (k * n + i.val)) (v i)) (acc : Acc) :
    forVectors n count body acc = some fun j => g j (acc j) := by
  have hfront : ∀ k ≤ count, forVectors n k body acc =
      some fun j => if j.val < k * n then g j (acc j) else acc j := by
    intro k
    induction k with
    | zero =>
      intro _
      rw [Nat.zero_mul]
      rfl
    | succ k ih =>
      intro hk
      have hbound : k * n + n ≤ 8 := by
        rw [← Nat.succ_mul, ← hsize]
        exact Nat.mul_le_mul_right n hk
      have hrun := ih (Nat.le_of_lt hk)
      unfold forVectors at hrun ⊢
      rw [List.range_succ, List.foldlM_append, hrun]
      simp only [List.foldlM_cons, List.foldlM_nil, Option.bind_eq_bind, Option.bind_some,
        Option.pure_def, hbody k hk, Nat.succ_mul]
      refine congrArg some (funext fun j => ?_)
      unfold storeAcc loadAcc
      by_cases hin : k * n ≤ j.val ∧ j.val < k * n + n
      · have hj : Fin.ofNat 8 (k * n + (j.val - k * n)) = j := by
          rw [Nat.add_sub_of_le hin.1]
          exact Fin.ofNat_val_eq_self j
        rw [dif_pos hin, if_pos hin.2]
        dsimp only
        rw [hj, if_neg (Nat.not_lt.mpr hin.1)]
      · rw [dif_neg hin]
        dsimp only
        by_cases hlt : j.val < k * n
        · rw [if_pos hlt, if_pos (by omega)]
        · rw [if_neg hlt, if_neg (by omega)]
  rw [hfront count (Nat.le_refl count), hsize]
  exact congrArg some (funext fun j => if_pos j.isLt)

/-! ## Intrinsics -/

def elements [NeZero n] (v : Vec n) (e : Nat) : BitVec 32 :=
  let lane := v (Fin.ofNat n (e / 2))
  if e % 2 = 0 then lowHalf lane else highHalf lane

def ofElements (e : Nat → BitVec 32) : Vec n := fun i => e (2 * i.val + 1) ++ e (2 * i.val)

def xorVec (a b : Vec n) : Vec n := fun i => a i ^^^ b i

def andVec (a b : Vec n) : Vec n := fun i => a i &&& b i

def addVec (a b : Vec n) : Vec n := fun i => a i + b i

def mulVec (a b : Vec n) : Vec n := fun i => a i * b i

def srliEpi64 (a : Vec n) (count : Nat) : Vec n := fun i => a i >>> count

def slliEpi64 (a : Vec n) (count : Nat) : Vec n := fun i => a i <<< count

def splat (x : BitVec 64) : Vec n := fun _ => x

def set1Epi32 (x : BitVec 32) : Vec n := ofElements fun _ => x

def mulEpu32 (a b : Vec n) : Vec n := fun i => mult32To64 (lowHalf (a i)) (lowHalf (b i))

/-- `_mm256_shuffle_epi32`: two bits of `imm` for each element of a block of four. -/
def shuffleEpi32 [NeZero n] (imm : Nat) (v : Vec n) : Vec n :=
  ofElements fun e => elements v (e / 4 * 4 + imm / 4 ^ (e % 4) % 4)

def accumulateVectors (n count : Nat) (lanes : Vec n → Vec n → Vec n → Vec n) (acc : Acc)
    (input : Bytes) (inputOff : Nat) (secret : Bytes) (secretOff : Nat) : Option Acc :=
  forVectors n count (fun lane accVec => do
    let dataVec ← loadVec n input (inputOff + 8 * lane)
    let keyVec ← loadVec n secret (secretOff + 8 * lane)
    some (lanes accVec dataVec keyVec)) acc

def scrambleVectors (n count : Nat) (lanes : Vec n → Vec n → Vec n) (acc : Acc)
    (secret : Bytes) (secretOff : Nat) : Option Acc :=
  forVectors n count (fun lane accVec => do
    let keyVec ← loadVec n secret (secretOff + 8 * lane)
    some (lanes accVec keyVec)) acc

end Vectors

/-! ### AVX2 -/

namespace Avx2

def accumulateLanes (accVec dataVec keyVec : Vec 4) : Vec 4 :=
  let dataKey := xorVec dataVec keyVec
  let dataKeyLo := srliEpi64 dataKey 32
  let product := mulEpu32 dataKey dataKeyLo
  let dataSwap := shuffleEpi32 78 dataVec
  let sum := addVec accVec dataSwap
  addVec product sum

def scrambleLanes (accVec keyVec : Vec 4) : Vec 4 :=
  let prime32 := set1Epi32 (lowHalf PRIME32_1)
  let shifted := srliEpi64 accVec 47
  let dataVec := xorVec accVec shifted
  let dataKey := xorVec dataVec keyVec
  let dataKeyHi := srliEpi64 dataKey 32
  let prodLo := mulEpu32 dataKey prime32
  let prodHi := mulEpu32 dataKeyHi prime32
  addVec prodLo (slliEpi64 prodHi 32)

end Avx2

/-! ### AVX-512 -/

namespace Avx512

def accumulateLanes (accVec dataVec keyVec : Vec 8) : Vec 8 :=
  let dataKey := xorVec dataVec keyVec
  let dataKeyLo := srliEpi64 dataKey 32
  let product := mulEpu32 dataKey dataKeyLo
  let dataSwap := shuffleEpi32 78 dataVec
  let sum := addVec accVec dataSwap
  addVec product sum

def scrambleLanes (accVec keyVec : Vec 8) : Vec 8 :=
  let prime32 := set1Epi32 (lowHalf PRIME32_1)
  let shifted := srliEpi64 accVec 47
  let dataKey := xorVec keyVec (xorVec accVec shifted)
  let dataKeyHi := srliEpi64 dataKey 32
  let prodLo := mulEpu32 dataKey prime32
  let prodHi := mulEpu32 dataKeyHi prime32
  addVec prodLo (slliEpi64 prodHi 32)

end Avx512

/-! ### NEON -/

namespace Neon

abbrev Vec32 := Fin 4 → BitVec 32

abbrev Half32 := Fin 2 → BitVec 32

def reinterpret32 (v : Vec 2) : Vec32 := fun i => elements v i.val

def reinterpret64 (v : Vec32) : Vec 2 := ofElements fun e => v (Fin.ofNat 4 e)

def pairElement (a b : Vec32) (i : Nat) : BitVec 32 :=
  if i < 4 then a (Fin.ofNat 4 i) else b (Fin.ofNat 4 (i - 4))

def vuzp1q (a b : Vec32) : Vec32 := fun i => pairElement a b (2 * i.val)

def vuzp2q (a b : Vec32) : Vec32 := fun i => pairElement a b (2 * i.val + 1)

def vgetLow (v : Vec32) : Half32 := fun i => v (Fin.ofNat 4 i.val)

def vgetHigh (v : Vec32) : Half32 := fun i => v (Fin.ofNat 4 (2 + i.val))

def vmlal (a : Vec 2) (b c : Half32) : Vec 2 := fun i => a i + mult32To64 (b i) (c i)

def vmulq (a b : Vec32) : Vec32 := fun i => a i * b i

/-- `vextq_u64::<1>` -/
def vext1 (a b : Vec 2) : Vec 2 := ![a 1, b 0]

def vmovn (v : Vec 2) : Half32 := fun i => lowHalf (v i)

def accumulateLanes (accVec dataVec keyVec : Vec 4) : Vec 4 :=
  let accVec1 : Vec 2 := ![accVec 0, accVec 1]
  let accVec2 : Vec 2 := ![accVec 2, accVec 3]
  let dataVec1 : Vec 2 := ![dataVec 0, dataVec 1]
  let dataVec2 : Vec 2 := ![dataVec 2, dataVec 3]
  let keyVec1 : Vec 2 := ![keyVec 0, keyVec 1]
  let keyVec2 : Vec 2 := ![keyVec 2, keyVec 3]
  let dataSwap1 := vext1 dataVec1 dataVec1
  let dataSwap2 := vext1 dataVec2 dataVec2
  let dataKey1 := xorVec dataVec1 keyVec1
  let dataKey2 := xorVec dataVec2 keyVec2
  let dataKeyLo := vuzp1q (reinterpret32 dataKey1) (reinterpret32 dataKey2)
  let dataKeyHi := vuzp2q (reinterpret32 dataKey1) (reinterpret32 dataKey2)
  let sum1 := vmlal dataSwap1 (vgetLow dataKeyLo) (vgetLow dataKeyHi)
  let sum2 := vmlal dataSwap2 (vgetHigh dataKeyLo) (vgetHigh dataKeyHi)
  let result1 := addVec accVec1 sum1
  let result2 := addVec accVec2 sum2
  ![result1 0, result1 1, result2 0, result2 1]

def scrambleLanes (accVec keyVec : Vec 2) : Vec 2 :=
  let kPrimeLo : Half32 := fun _ => lowHalf PRIME32_1
  let kPrimeHi := reinterpret32 (splat (PRIME32_1 <<< 32))
  let shifted := srliEpi64 accVec 47
  let dataVec := xorVec accVec shifted
  let dataKey := xorVec dataVec keyVec
  let prodHi := vmulq (reinterpret32 dataKey) kPrimeHi
  let dataKeyLo := vmovn dataKey
  vmlal (reinterpret64 prodHi) dataKeyLo kPrimeLo

end Neon

/-! ### WebAssembly -/

namespace WasmSimd128

def mask : Vec 2 := splat 0x00000000FFFFFFFF

/-- `i64x2_shuffle::<1, 0>` -/
def shuffle10 (a b : Vec 2) : Vec 2 := ![a 1, b 0]

def accumulateLanes (accVec dataVec keyVec : Vec 2) : Vec 2 :=
  let dataKey := xorVec dataVec keyVec
  let dataKeyHigh := srliEpi64 dataKey 32
  let dataKeyLow := andVec dataKey mask
  let product := mulVec dataKeyLow dataKeyHigh
  let dataSwap := shuffle10 dataVec dataVec
  let sum := addVec accVec dataSwap
  addVec sum product

def scrambleLanes (accVec keyVec : Vec 2) : Vec 2 :=
  let primeVec := splat PRIME32_1
  let shifted := srliEpi64 accVec 47
  let dataVec := xorVec accVec shifted
  let dataKey := xorVec dataVec keyVec
  let dataKeyHi := srliEpi64 dataKey 32
  let dataKeyLo := andVec dataKey mask
  let prodLo := mulVec dataKeyLo primeVec
  let prodHi := mulVec dataKeyHi primeVec
  let prodHiShifted := slliEpi64 prodHi 32
  addVec prodLo prodHiShifted

end WasmSimd128

/-! ## Dispatch -/

inductive Kernel where
  | scalar
  | avx2
  | avx512
  | neon
  | wasmSimd128
  deriving DecidableEq

def accumulate512 : Kernel → Acc → Bytes → Nat → Bytes → Nat → Option Acc
  | .scalar => accumulate512Scalar
  | .avx2 => accumulateVectors 4 2 Avx2.accumulateLanes
  | .avx512 => accumulateVectors 8 1 Avx512.accumulateLanes
  | .neon => accumulateVectors 4 2 Neon.accumulateLanes
  | .wasmSimd128 => accumulateVectors 2 4 WasmSimd128.accumulateLanes

def scrambleAcc : Kernel → Acc → Bytes → Nat → Option Acc
  | .scalar => scrambleAccScalar
  | .avx2 => scrambleVectors 4 2 Avx2.scrambleLanes
  | .avx512 => scrambleVectors 8 1 Avx512.scrambleLanes
  | .neon => scrambleVectors 2 4 Neon.scrambleLanes
  | .wasmSimd128 => scrambleVectors 2 4 WasmSimd128.scrambleLanes

def accumulateLoop (kernel : Kernel) (acc : Acc) (input : Bytes) (inputOff : Nat)
    (secret : Bytes) (secretOff nbStripes : Nat) : Option Acc :=
  (List.range nbStripes).foldlM (fun acc i =>
    accumulate512 kernel acc input (inputOff + i * STRIPE_LEN) secret
      (secretOff + i * SECRET_CONSUME_RATE)) acc

/-! ## The vector kernels agree with the scalar one -/

section Agreement

variable {n : Nat} [NeZero n]

/-- A register does the work of its lanes. -/
def AccumulatesLanes (lanes : Vec n → Vec n → Vec n → Vec n) : Prop :=
  ∀ accVec dataVec keyVec i, lanes accVec dataVec keyVec i =
    accVec i + dataVec (i ^^^ 1) +
      mult32To64 (lowHalf (dataVec i ^^^ keyVec i)) (highHalf (dataVec i ^^^ keyVec i))

def ScramblesLanes (lanes : Vec n → Vec n → Vec n) : Prop :=
  ∀ accVec keyVec i, lanes accVec keyVec i =
    (xorshift64 (accVec i) 47 ^^^ keyVec i) * PRIME32_1

theorem accumulateVectors_eq {count : Nat} {lanes : Vec n → Vec n → Vec n → Vec n}
    (hlanes : AccumulatesLanes lanes) (hsize : count * n = 8)
    (hpair : ∀ k < count, ∀ i : Fin n, k * n + (i ^^^ 1).val =
      (Fin.ofNat 8 (k * n + i.val) ^^^ 1).val) (acc : Acc) {input secret : Bytes}
    {inputOff secretOff : Nat} (hinput : inputOff + 64 ≤ input.length)
    (hsecret : secretOff + 64 ≤ secret.length) :
    accumulateVectors n count lanes acc input inputOff secret secretOff =
      some (accumulated acc (input.drop inputOff) (secret.drop secretOff)) := by
  refine forVectors_eq hsize (fun j x =>
    x + wordAt (input.drop inputOff) (8 * (j ^^^ 1).val) +
      mult32To64
        (lowHalf (wordAt (input.drop inputOff) (8 * j.val) ^^^
          wordAt (secret.drop secretOff) (8 * j.val)))
        (highHalf (wordAt (input.drop inputOff) (8 * j.val) ^^^
          wordAt (secret.drop secretOff) (8 * j.val)))) ?_ acc
  intro k hk v
  have hbound : k * n + n ≤ 8 := by
    rw [← Nat.succ_mul, ← hsize]
    exact Nat.mul_le_mul_right n hk
  rw [loadVec, if_pos (by omega), loadVec, if_pos (by omega)]
  refine congrArg some (funext fun i => ?_)
  have hval : (Fin.ofNat 8 (k * n + i.val)).val = k * n + i.val := Nat.mod_eq_of_lt (by omega)
  rw [hlanes, ← hpair k hk i, hval, wordAt_drop, wordAt_drop, wordAt_drop, Nat.mul_add,
    Nat.mul_add, Nat.add_assoc, Nat.add_assoc, Nat.add_assoc]

omit [NeZero n] in
theorem scrambleVectors_eq {count : Nat} {lanes : Vec n → Vec n → Vec n}
    (hlanes : ScramblesLanes lanes) (hsize : count * n = 8) (acc : Acc) {secret : Bytes}
    {secretOff : Nat} (hsecret : secretOff + 64 ≤ secret.length) :
    scrambleVectors n count lanes acc secret secretOff =
      some (scrambled acc (secret.drop secretOff)) := by
  refine forVectors_eq hsize (fun j x =>
    (xorshift64 x 47 ^^^ wordAt (secret.drop secretOff) (8 * j.val)) * PRIME32_1) ?_ acc
  intro k hk v
  have hbound : k * n + n ≤ 8 := by
    rw [← Nat.succ_mul, ← hsize]
    exact Nat.mul_le_mul_right n hk
  rw [loadVec, if_pos (by omega)]
  refine congrArg some (funext fun i => ?_)
  have hval : (Fin.ofNat 8 (k * n + i.val)).val = k * n + i.val := Nat.mod_eq_of_lt (by omega)
  rw [hlanes, hval, wordAt_drop, Nat.mul_add, Nat.add_assoc]

end Agreement

theorem halves_append (x : BitVec 64) : highHalf x ++ lowHalf x = x := by
  refine BitVec.eq_of_toNat_eq ?_
  have hx := x.isLt
  rw [BitVec.toNat_append, lowHalf, highHalf, BitVec.toNat_setWidth, BitVec.toNat_setWidth,
    BitVec.toNat_ushiftRight, Nat.shiftRight_eq_div_pow,
    ← Nat.shiftLeft_add_eq_or_of_lt (Nat.mod_lt _ (by decide)), Nat.shiftLeft_eq]
  omega

theorem mul_prime (x : BitVec 64) :
    mult32To64 (lowHalf x) (lowHalf PRIME32_1) +
      mult32To64 (highHalf x) (lowHalf PRIME32_1) <<< 32 = x * PRIME32_1 := by
  refine BitVec.eq_of_toNat_eq ?_
  have hx := x.isLt
  have hlow : (lowHalf x).toNat = x.toNat % 2 ^ 32 := BitVec.toNat_setWidth 32 x
  have hhigh : (highHalf x).toNat = x.toNat / 2 ^ 32 := by
    rw [highHalf, BitVec.toNat_setWidth, BitVec.toNat_ushiftRight, Nat.shiftRight_eq_div_pow]
    omega
  have hprime : (lowHalf PRIME32_1).toNat = 0x9E3779B1 := by decide
  have hprime' : PRIME32_1.toNat = 0x9E3779B1 := by decide
  have hmul : ∀ a b : BitVec 32, (mult32To64 a b).toNat = a.toNat * b.toNat % 2 ^ 64 := by
    intro a b
    rw [mult32To64, BitVec.toNat_mul, BitVec.toNat_setWidth_of_le (by decide),
      BitVec.toNat_setWidth_of_le (by decide)]
  rw [BitVec.toNat_add, BitVec.toNat_shiftLeft, hmul, hmul, BitVec.toNat_mul, hlow, hhigh, hprime,
    hprime', Nat.shiftLeft_eq]
  omega

theorem mask_eq (x : BitVec 64) : x &&& 0x00000000FFFFFFFF = (lowHalf x).setWidth 64 := by
  refine BitVec.eq_of_toNat_eq ?_
  have hmask : (0x00000000FFFFFFFF : BitVec 64).toNat = 2 ^ 32 - 1 := by decide
  rw [BitVec.toNat_and, hmask, Nat.and_two_pow_sub_one_eq_mod,
    BitVec.toNat_setWidth_of_le (by decide)]
  exact (BitVec.toNat_setWidth 32 x).symm

theorem shift_eq (x : BitVec 64) : x >>> 32 = (highHalf x).setWidth 64 := by
  refine BitVec.eq_of_toNat_eq ?_
  have hx := x.isLt
  rw [BitVec.toNat_setWidth_of_le (by decide), highHalf, BitVec.toNat_setWidth,
    BitVec.toNat_ushiftRight, Nat.shiftRight_eq_div_pow]
  omega

theorem mul_append_zero (a b : BitVec 32) :
    (a * b) ++ 0#32 = mult32To64 a b <<< 32 := by
  refine BitVec.eq_of_toNat_eq ?_
  have hzero : (0#32).toNat = 0 := rfl
  rw [BitVec.toNat_append, BitVec.toNat_shiftLeft, mult32To64, BitVec.toNat_mul, BitVec.toNat_mul,
    BitVec.toNat_setWidth_of_le (by decide), BitVec.toNat_setWidth_of_le (by decide), hzero,
    Nat.or_zero, Nat.shiftLeft_eq, Nat.shiftLeft_eq]
  omega

theorem Avx2.accumulatesLanes : AccumulatesLanes Avx2.accumulateLanes := by
  intro accVec dataVec keyVec i
  have hswap : shuffleEpi32 78 dataVec i = dataVec (i ^^^ 1) := by
    fin_cases i <;> exact halves_append _
  unfold accumulateLanes addVec mulEpu32
  rw [hswap, BitVec.add_comm]
  rfl

theorem Avx512.accumulatesLanes : AccumulatesLanes Avx512.accumulateLanes := by
  intro accVec dataVec keyVec i
  have hswap : shuffleEpi32 78 dataVec i = dataVec (i ^^^ 1) := by
    fin_cases i <;> exact halves_append _
  unfold accumulateLanes addVec mulEpu32
  rw [hswap, BitVec.add_comm]
  rfl

theorem Neon.accumulatesLanes : AccumulatesLanes Neon.accumulateLanes := by
  intro accVec dataVec keyVec i
  fin_cases i <;> exact (BitVec.add_assoc _ _ _).symm

theorem WasmSimd128.accumulatesLanes : AccumulatesLanes WasmSimd128.accumulateLanes := by
  intro accVec dataVec keyVec i
  have hproduct : mulVec (andVec (xorVec dataVec keyVec) mask)
      (srliEpi64 (xorVec dataVec keyVec) 32) i =
      mult32To64 (lowHalf (dataVec i ^^^ keyVec i)) (highHalf (dataVec i ^^^ keyVec i)) :=
    congrArg₂ (fun a b => a * b) (mask_eq _) (shift_eq _)
  have hswap : shuffle10 dataVec dataVec i = dataVec (i ^^^ 1) := by
    fin_cases i <;> rfl
  unfold accumulateLanes addVec
  rw [hproduct, hswap]

theorem Avx2.scramblesLanes : ScramblesLanes Avx2.scrambleLanes := by
  intro accVec keyVec i
  have hprime : lowHalf (set1Epi32 (lowHalf PRIME32_1) i : BitVec 64) = lowHalf PRIME32_1 := by
    change lowHalf (lowHalf PRIME32_1 ++ lowHalf PRIME32_1) = lowHalf PRIME32_1
    decide
  unfold scrambleLanes addVec slliEpi64 mulEpu32
  rw [hprime]
  exact mul_prime _

theorem Avx512.scramblesLanes : ScramblesLanes Avx512.scrambleLanes := by
  intro accVec keyVec i
  have hprime : lowHalf (set1Epi32 (lowHalf PRIME32_1) i : BitVec 64) = lowHalf PRIME32_1 := by
    change lowHalf (lowHalf PRIME32_1 ++ lowHalf PRIME32_1) = lowHalf PRIME32_1
    decide
  unfold scrambleLanes addVec slliEpi64 mulEpu32
  rw [hprime, BitVec.xor_comm (xorshift64 (accVec i) 47)]
  exact mul_prime _

theorem Neon.scramblesLanes : ScramblesLanes Neon.scrambleLanes := by
  intro accVec keyVec i
  have hprodHi : ∀ x : BitVec 64,
      (highHalf x * highHalf (PRIME32_1 <<< 32)) ++ (lowHalf x * lowHalf (PRIME32_1 <<< 32)) =
        mult32To64 (highHalf x) (lowHalf PRIME32_1) <<< 32 := by
    intro x
    have hzero : lowHalf (PRIME32_1 <<< 32) = 0#32 := by decide
    have hprime : highHalf (PRIME32_1 <<< 32) = lowHalf PRIME32_1 := by decide
    rw [hzero, hprime, BitVec.mul_zero, mul_append_zero]
  unfold scrambleLanes vmlal
  rw [← mul_prime, BitVec.add_comm, ← hprodHi]
  fin_cases i <;> rfl

theorem WasmSimd128.scramblesLanes : ScramblesLanes WasmSimd128.scrambleLanes := by
  intro accVec keyVec i
  have hprime : PRIME32_1 = (lowHalf PRIME32_1).setWidth 64 := by decide
  rw [← mul_prime, mult32To64, mult32To64, ← hprime, ← mask_eq, ← shift_eq]
  rfl

theorem accumulate512_eq (kernel : Kernel) (acc : Acc) {input secret : Bytes}
    {inputOff secretOff : Nat} (hinput : inputOff + 64 ≤ input.length)
    (hsecret : secretOff + 64 ≤ secret.length) :
    accumulate512 kernel acc input inputOff secret secretOff =
      some (accumulated acc (input.drop inputOff) (secret.drop secretOff)) := by
  cases kernel with
  | scalar => exact accumulate512Scalar_eq acc hinput hsecret
  | avx2 =>
    exact accumulateVectors_eq Avx2.accumulatesLanes rfl (by decide) acc hinput hsecret
  | avx512 =>
    exact accumulateVectors_eq Avx512.accumulatesLanes rfl (by decide) acc hinput hsecret
  | neon =>
    exact accumulateVectors_eq Neon.accumulatesLanes rfl (by decide) acc hinput hsecret
  | wasmSimd128 =>
    exact accumulateVectors_eq WasmSimd128.accumulatesLanes rfl (by decide) acc hinput hsecret

theorem scrambleAcc_eq (kernel : Kernel) (acc : Acc) {secret : Bytes} {secretOff : Nat}
    (hsecret : secretOff + 64 ≤ secret.length) :
    scrambleAcc kernel acc secret secretOff = some (scrambled acc (secret.drop secretOff)) := by
  cases kernel with
  | scalar => exact scrambleAccScalar_eq acc hsecret
  | avx2 => exact scrambleVectors_eq Avx2.scramblesLanes rfl acc hsecret
  | avx512 => exact scrambleVectors_eq Avx512.scramblesLanes rfl acc hsecret
  | neon => exact scrambleVectors_eq Neon.scramblesLanes rfl acc hsecret
  | wasmSimd128 => exact scrambleVectors_eq WasmSimd128.scramblesLanes rfl acc hsecret

/-! ## Loops over stripes -/

theorem accumulated_take (acc : Acc) (data key : Bytes) :
    accumulated acc (data.take 64) key = accumulated acc data key := by
  funext j
  have hj := j.isLt
  have hpair := (j ^^^ 1).isLt
  unfold accumulated
  rw [wordAt_take data (by omega), wordAt_take data (by omega)]

theorem accumulateLoop_eq (kernel : Kernel) (acc : Acc) {input secret : Bytes}
    {inputOff secretOff nbStripes : Nat} (hinput : inputOff + 64 * nbStripes ≤ input.length)
    (hsecret : ∀ i < nbStripes, secretOff + 8 * i + 64 ≤ secret.length) :
    accumulateLoop kernel acc input inputOff secret secretOff nbStripes =
      some (foldBlocks 64 (fun i acc stripe =>
        accumulated acc stripe (secret.drop (secretOff + 8 * i))) nbStripes acc
          (input.drop inputOff)) := by
  induction nbStripes with
  | zero => rfl
  | succ n ih =>
    have hrun := ih (by omega) fun i hi => hsecret i (Nat.lt_succ_of_lt hi)
    have hlast := hsecret n (Nat.lt_succ_self n)
    unfold accumulateLoop at hrun ⊢
    rw [List.range_succ, List.foldlM_append, hrun, foldBlocks_succ, blockAt, accumulated_take,
      List.drop_drop]
    simp only [List.foldlM_cons, List.foldlM_nil, Option.bind_eq_bind, Option.bind_some,
      Option.pure_def, STRIPE_LEN, SECRET_CONSUME_RATE]
    rw [accumulate512_eq kernel _ (by omega) (by omega), Nat.mul_comm n 64, Nat.mul_comm n 8]
    rfl

end Stdx.Xxhash.Xxh3

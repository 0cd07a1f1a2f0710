import Stdx.Ascon.Modes

/-!
# Decryption undoes encryption

The permutation is any function here.  `ascon_aead128.rs` absorbs the associated data and
the plaintext as one sequence of blocks; both directions go through the same states.
-/

namespace Stdx.Ascon

open Stdx.Foundation Stdx.Cipher

def Core.withPermutation {σ : Type} (core : Core σ) (p8 p12 : σ → σ) : Core σ :=
  { core with p8 := p8, p12 := p12 }

/-! ## Blocks and the octets behind them -/

def joined (chunks : List (FixedBytes 16)) : Bytes := (chunks.map FixedBytes.octets).flatten

@[simp] theorem joined_nil : joined [] = [] := rfl

@[simp] theorem joined_cons (chunk : FixedBytes 16) (chunks : List (FixedBytes 16)) :
    joined (chunk :: chunks) = chunk.octets ++ joined chunks := rfl

theorem joined_length (chunks : List (FixedBytes 16)) :
    (joined chunks).length = 16 * chunks.length := by
  induction chunks with
  | nil => rfl
  | cons chunk chunks ih =>
    rw [joined_cons, List.length_append, ih, chunk.length_eq, List.length_cons]
    omega

theorem asChunks_short {rest : Bytes} (h : rest.length < 16) : asChunks rest = [] := by
  rw [asChunks, dif_neg (by omega)]

theorem asChunks_joined (chunks : List (FixedBytes 16)) {rest : Bytes} (h : rest.length < 16) :
    asChunks (joined chunks ++ rest) = chunks := by
  induction chunks with
  | nil => rw [joined_nil, List.nil_append, asChunks_short h]
  | cons chunk chunks ih =>
    have hlength : 16 ≤ (joined (chunk :: chunks) ++ rest).length := by
      rw [List.length_append, joined_length, List.length_cons]
      omega
    have htake : (joined (chunk :: chunks) ++ rest).take 16 = chunk.octets := by
      rw [joined_cons, List.append_assoc, List.take_left' chunk.length_eq]
    have hdrop : (joined (chunk :: chunks) ++ rest).drop 16 = joined chunks ++ rest := by
      rw [joined_cons, List.append_assoc, List.drop_left' chunk.length_eq]
    rw [asChunks, dif_pos hlength]
    simp only [htake, hdrop, ih]

theorem remainder_joined (chunks : List (FixedBytes 16)) {rest : Bytes} (h : rest.length < 16) :
    remainder (joined chunks ++ rest) = rest := by
  have hwhole : 16 * ((joined chunks ++ rest).length / 16) = (joined chunks).length := by
    rw [List.length_append, joined_length]
    omega
  rw [remainder, hwhole, List.drop_left]

theorem exists_joined (data : Bytes) : ∃ chunks rest,
    rest.length < 16 ∧ data = joined chunks ++ rest := by
  induction hn : data.length / 16 generalizing data with
  | zero => exact ⟨[], data, by omega, rfl⟩
  | succ n ih =>
    obtain ⟨chunks, rest, hrest, hdata⟩ := ih (data.drop 16) (by rw [List.length_drop]; omega)
    have hlength : (data.take 16).length = 16 := by
      rw [List.length_take]
      omega
    refine ⟨⟨data.take 16, hlength⟩ :: chunks, rest, hrest, ?_⟩
    rw [joined_cons, List.append_assoc, ← hdata, List.take_append_drop]

/-! ## Padding -/

def padBlock (rest : Bytes) : FixedBytes 16 :=
  ⟨(rest ++ 0x01 :: List.replicate 15 0).take 16, by simp⟩

theorem padBlock_octets {rest : Bytes} (h : rest.length < 16) :
    (padBlock rest).octets = rest ++ 0x01 :: List.replicate (15 - rest.length) 0 := by
  obtain ⟨n, hn⟩ : ∃ n, 16 - rest.length = n + 1 := ⟨15 - rest.length, by omega⟩
  have hcount : 15 - rest.length = n := by omega
  have htake : (padBlock rest).octets = (rest ++ 0x01 :: List.replicate 15 0).take 16 := rfl
  rw [htake, List.take_append, List.take_of_length_le (by omega), hn, List.take_succ_cons,
    List.take_replicate, hcount, Nat.min_eq_left (by omega)]

def padBlocks (data : Bytes) : List (FixedBytes 16) :=
  asChunks data ++ [padBlock (remainder data)]

theorem marked_inj {a b : Bytes} {m n : Nat}
    (h : a ++ 0x01 :: List.replicate m 0 = b ++ 0x01 :: List.replicate n 0) : a = b := by
  have hreverse := congrArg List.reverse h
  simp only [List.reverse_append, List.reverse_cons, List.reverse_replicate,
    List.append_assoc, List.singleton_append] at hreverse
  induction m generalizing n with
  | zero =>
    cases n with
    | zero => simpa using hreverse
    | succ n => simp [List.replicate_succ] at hreverse
  | succ m ih =>
    cases n with
    | zero => simp [List.replicate_succ] at hreverse
    | succ n =>
      simp only [List.replicate_succ, List.cons_append, List.cons.injEq, true_and] at hreverse
      apply ih (n := n) _ hreverse
      have hreverse' := congrArg List.reverse hreverse
      simpa using hreverse'

theorem joined_append (a b : List (FixedBytes 16)) :
    joined (a ++ b) = joined a ++ joined b := by
  simp [joined]

theorem padBlocks_octets (data : Bytes) : ∃ count,
    joined (padBlocks data) = data ++ 0x01 :: List.replicate count 0 := by
  obtain ⟨chunks, rest, hrest, rfl⟩ := exists_joined data
  refine ⟨15 - rest.length, ?_⟩
  rw [padBlocks, asChunks_joined chunks hrest, remainder_joined chunks hrest, joined_append,
    joined_cons, joined_nil, List.append_nil, padBlock_octets hrest, List.append_assoc]

theorem padBlocks_inj : Function.Injective padBlocks := by
  intro a b h
  obtain ⟨m, hm⟩ := padBlocks_octets a
  obtain ⟨n, hn⟩ := padBlocks_octets b
  rw [h, hn] at hm
  exact (marked_inj hm).symm

theorem padBlocks_ne_nil (data : Bytes) : padBlocks data ≠ [] := by
  simp [padBlocks]

/-! ## The absorbed sequence -/

structure Absorbed where
  separated : Bool
  block : FixedBytes 16
  deriving DecidableEq

def separate : List (FixedBytes 16) → List Absorbed
  | [] => []
  | first :: rest => ⟨true, first⟩ :: rest.map (Absorbed.mk false)

def transcript (aad plaintext : Bytes) : List Absorbed :=
  (if aad = [] then [] else padBlocks aad).map (Absorbed.mk false) ++
    separate (padBlocks plaintext)

theorem transcript_inj : Function.Injective2 transcript := by
  intro aad aad' pt pt' h
  have hfront (blocks : List (FixedBytes 16)) (data : Bytes) :
      (blocks.map (Absorbed.mk false) ++ separate (padBlocks data)).takeWhile (!·.separated) =
        blocks.map (Absorbed.mk false) := by
    rw [List.takeWhile_append_of_pos (by simp)]
    cases hpad : padBlocks data with
    | nil => exact absurd hpad (padBlocks_ne_nil data)
    | cons first rest => simp [separate]
  have hmk : Function.Injective (Absorbed.mk false) := fun a b h => (Absorbed.mk.inj h).2
  have haad := congrArg (List.takeWhile (!·.separated)) h
  rw [transcript, transcript, hfront, hfront] at haad
  have hback : separate (padBlocks pt) = separate (padBlocks pt') := by
    rw [transcript, transcript, haad] at h
    exact List.append_cancel_left h
  constructor
  · have hblocks := List.map_injective_iff.mpr hmk haad
    by_cases ha : aad = []
    · by_cases ha' : aad' = []
      · rw [ha, ha']
      · rw [if_pos ha, if_neg ha'] at hblocks
        exact absurd hblocks.symm (padBlocks_ne_nil aad')
    · by_cases ha' : aad' = []
      · rw [if_neg ha, if_pos ha'] at hblocks
        exact absurd hblocks (padBlocks_ne_nil aad)
      · rw [if_neg ha, if_neg ha'] at hblocks
        exact padBlocks_inj hblocks
  · apply padBlocks_inj
    have hblocks := congrArg (List.map Absorbed.block) hback
    have hsame (data : Bytes) :
        (separate (padBlocks data)).map Absorbed.block = padBlocks data := by
      cases padBlocks data with
      | nil => rfl
      | cons first rest => simp [separate, Function.comp_def]
    rwa [hsame, hsame] at hblocks

/-! ## The last octets -/

section

variable {σ : Type} (core : Core σ)

def absorb (s : σ) (item : Absorbed) : σ :=
  core.xorRate128Bytes (if item.separated then core.applyDomainSep s else s) item.block

def absorbAll : σ → List Absorbed → σ
  | s, [] => s
  | s, [item] => absorb core s item
  | s, item :: next :: rest => absorbAll (core.p8 (absorb core s item)) (next :: rest)

def encryptLast (s : σ) (rest : Bytes) : Option (σ × Bytes) := do
  let (s, out) ← AsconAead128.encryptRemainder core s rest
  let s ← core.applyAeadPad s rest.length
  some (s, out)

/-- What the mode needs of the operations on the rate. -/
structure RateLaws : Prop where
  xorWord_total : ∀ s idx val, idx < 5 → ∃ t, core.xorWord s idx val = some t
  encrypt_state : ∀ s block, (core.encryptInPlaceBlock s block).1 = core.xorRate128Bytes s block
  decrypt_encrypt : ∀ s block, core.decryptInPlaceBlock s (core.encryptInPlaceBlock s block).2 =
    ((core.encryptInPlaceBlock s block).1, block)
  encrypt_decrypt : ∀ s block, core.encryptInPlaceBlock s (core.decryptInPlaceBlock s block).2 =
    ((core.decryptInPlaceBlock s block).1, block)
  absorb_last : ∀ s rest, rest.length < 16 →
    ((AsconAead128.absorbRemainder core s rest).bind (core.applyAeadPad · rest.length)) =
      some (core.xorRate128Bytes s (padBlock rest))
  encrypt_last : ∀ s rest, rest.length < 16 → ∃ out, out.length = rest.length ∧
    encryptLast core s rest = some (core.xorRate128Bytes s (padBlock rest), out) ∧
    AsconAead128.decryptRemainder core s out =
      some (core.xorRate128Bytes s (padBlock rest), rest)
  decrypt_last : ∀ s out, out.length < 16 → ∃ rest, rest.length = out.length ∧
    encryptLast core s rest = some (core.xorRate128Bytes s (padBlock rest), out) ∧
    AsconAead128.decryptRemainder core s out =
      some (core.xorRate128Bytes s (padBlock rest), rest)

end

namespace Ascon64b

variable (checks : Bool) (s : State)

theorem xorRate128Bytes_padBlock {rest : Bytes} (h : rest.length < 16) :
    xorRate128Bytes s (padBlock rest) =
      withRate s (xorOctets (rate s) rest ++ flipHead ((rate s).drop rest.length)) := by
  have hdrop : ((rate s).drop rest.length).length - 1 = 15 - rest.length := by
    simp
    omega
  have hflip := xorOctets_flipHead ((rate s).drop rest.length)
  rw [hdrop] at hflip
  have hfront : xorOctets ((rate s).take rest.length) rest = xorOctets (rate s) rest := by
    have hleft := @xorOctets_left ((rate s).take rest.length)
      ((rate s).drop rest.length) rest (by simp; omega)
    rw [← hleft, List.take_append_drop]
  have hlength : ((rate s).take rest.length).length = rest.length := by
    simp
    omega
  rw [xorRate128Bytes_eq, padBlock_octets h, ← hflip, ← hfront, ← xorOctets_append hlength,
    List.take_append_drop]

theorem xor_rest_length {rest : Bytes} (h : rest.length < 16) :
    (xorOctets (rate s) rest).length = rest.length :=
  xorOctets_length (by rw [rate_length]; omega)

theorem applyAeadPad_xorRest {rest : Bytes} (h : rest.length < 16) :
    applyAeadPad checks
        (withRate s (xorOctets (rate s) rest ++ (rate s).drop rest.length)) rest.length =
      some (xorRate128Bytes s (padBlock rest)) := by
  have hxor := xor_rest_length s h
  have hlength : (xorOctets (rate s) rest ++ (rate s).drop rest.length).length = 16 := by
    rw [List.length_append, hxor, List.length_drop, rate_length]
    omega
  rw [applyAeadPad_eq checks _ h, rate_withRate s hlength, withRate_withRate,
    List.take_left' hxor, List.drop_left' hxor, xorRate128Bytes_padBlock s h]

theorem absorb_last {rest : Bytes} (h : rest.length < 16) (p8 p12 : State → State) :
    ((AsconAead128.absorbRemainder ((core64b checks).withPermutation p8 p12) s rest).bind
      (applyAeadPad checks · rest.length)) = some (xorRate128Bytes s (padBlock rest)) := by
  have hpad := applyAeadPad_xorRest checks s h
  unfold AsconAead128.absorbRemainder
  split
  · rename_i hnil
    subst hnil
    simpa [withRate_rate] using hpad
  · rename_i hne
    have hxor := xorPartialRate_eq checks s hne (by omega)
    simp only [Core.withPermutation, core64b, hxor, Option.bind_some, hpad]

section

variable (p8 p12 : State → State)

theorem encryptLast_eq {rest : Bytes} (h : rest.length < 16) :
    encryptLast ((core64b checks).withPermutation p8 p12) s rest =
      some (xorRate128Bytes s (padBlock rest), xorOctets (rate s) rest) := by
  have hpad := applyAeadPad_xorRest checks s h
  unfold encryptLast AsconAead128.encryptRemainder
  split
  · rename_i hpos
    have hne : rest ≠ [] := List.length_pos_iff.mp hpos
    have hxor := xorPartialRate_eq checks s hne (by omega)
    have hread := readRateBytes_eq checks
      (withRate s (xorOctets (rate s) rest ++ (rate s).drop rest.length)) hpos (by omega)
    have hlength : (xorOctets (rate s) rest ++ (rate s).drop rest.length).length = 16 := by
      rw [List.length_append, xor_rest_length s h, List.length_drop, rate_length]
      omega
    rw [rate_withRate s hlength, List.take_left' (xor_rest_length s h)] at hread
    simp only [Core.withPermutation, core64b, hxor, hread, hpad, Option.bind_eq_bind,
      Option.bind_some]
  · have hnil : rest = [] := List.length_eq_zero_iff.mp (by omega)
    subst hnil
    have hzero : applyAeadPad checks s 0 = some (xorRate128Bytes s (padBlock [])) := by
      simpa [withRate_rate] using hpad
    simp [Core.withPermutation, core64b, hzero]

theorem decryptRemainder_eq {out : Bytes} (h : out.length < 16) :
    AsconAead128.decryptRemainder ((core64b checks).withPermutation p8 p12) s out =
      some (withRate s (out ++ flipHead ((rate s).drop out.length)),
        xorOctets (rate s) out) := by
  have hpad := applyAeadPad_eq checks s h
  unfold AsconAead128.decryptRemainder
  split
  · rename_i hpos
    have hne : out ≠ [] := List.length_pos_iff.mp hpos
    have hread := readRateBytes_eq checks s hpos (by omega)
    have htake : ((rate s).take out.length).length = out.length := by
      simp
      omega
    have hlength : ((rate s).take out.length ++ flipHead ((rate s).drop out.length)).length =
        16 := by
      rw [List.length_append, htake, flipHead_length, List.length_drop, rate_length]
      omega
    have hwrite := writeRateBytes_eq checks
      (withRate s ((rate s).take out.length ++ flipHead ((rate s).drop out.length))) hne
      (by omega)
    rw [rate_withRate s hlength, withRate_withRate, List.drop_left' htake] at hwrite
    have hmask : xorOctets ((rate s).take out.length) out = xorOctets (rate s) out := by
      have hleft := @xorOctets_left ((rate s).take out.length)
        ((rate s).drop out.length) out (by omega)
      rw [← hleft, List.take_append_drop]
    simp only [xorOctets] at hmask
    simp only [Core.withPermutation, core64b, hread, hpad, hwrite, hmask, Option.bind_eq_bind,
      Option.bind_some]
  · have hnil : out = [] := List.length_eq_zero_iff.mp (by omega)
    subst hnil
    simp only [List.length_nil, List.take_zero, List.drop_zero, List.nil_append] at hpad
    simp [Core.withPermutation, core64b, hpad]

theorem decryptRemainder_of_xor {rest : Bytes} (h : rest.length < 16) :
    AsconAead128.decryptRemainder ((core64b checks).withPermutation p8 p12) s
        (xorOctets (rate s) rest) =
      some (xorRate128Bytes s (padBlock rest), rest) := by
  have hlength := xor_rest_length s h
  have hcancel : xorOctets (rate s) (xorOctets (rate s) rest) = rest :=
    xorOctets_cancel (by rw [rate_length]; omega)
  rw [decryptRemainder_eq checks s p8 p12 (by omega), hlength, hcancel,
    xorRate128Bytes_padBlock s h]

theorem rateLaws : RateLaws ((core64b checks).withPermutation p8 p12) where
  xorWord_total s idx val h := ⟨_, dif_pos h⟩
  encrypt_state _ _ := rfl
  decrypt_encrypt := decrypt_encrypt_block
  encrypt_decrypt := encrypt_decrypt_block
  absorb_last s _ h := absorb_last checks s h p8 p12
  encrypt_last s rest h := ⟨xorOctets (rate s) rest, xor_rest_length s h,
    encryptLast_eq checks s p8 p12 h, decryptRemainder_of_xor checks s p8 p12 h⟩
  decrypt_last s out h := by
    have hlength := xor_rest_length s h
    have hcancel : xorOctets (rate s) (xorOctets (rate s) out) = out :=
      xorOctets_cancel (by rw [rate_length]; omega)
    have hencrypt := @encryptLast_eq checks s p8 p12 (xorOctets (rate s) out) (by omega)
    have hdecrypt := @decryptRemainder_of_xor checks s p8 p12 (xorOctets (rate s) out) (by omega)
    rw [hcancel] at hencrypt hdecrypt
    exact ⟨_, hlength, hencrypt, hdecrypt⟩

end

end Ascon64b

/-! ## The mode -/

section

variable {σ : Type} {core : Core σ}

theorem blocks_undone (core : Core σ) {step back : σ → FixedBytes 16 → σ × FixedBytes 16}
    (hundo : ∀ s block, back s (step s block).2 = ((step s block).1, block)) (s : σ)
    (chunks : List (FixedBytes 16)) : ∃ t outs, outs.length = chunks.length ∧
      AsconAead128.blocks core step s chunks = (t, joined outs) ∧
      AsconAead128.blocks core back s outs = (t, joined chunks) := by
  induction chunks generalizing s with
  | nil => exact ⟨s, [], rfl, rfl, rfl⟩
  | cons chunk chunks ih =>
    obtain ⟨t, outs, hlength, hstep, hback⟩ := ih (core.p8 (step s chunk).1)
    refine ⟨t, (step s chunk).2 :: outs, ?_, ?_, ?_⟩
    · rw [List.length_cons, hlength, List.length_cons]
    · simp only [AsconAead128.blocks, hstep, joined_cons]
    · simp only [AsconAead128.blocks, hundo, hback, joined_cons]

def encryptBody (core : Core σ) (s : σ) (inOut : Bytes) : Option (σ × Bytes) := do
  let (s, front) := AsconAead128.blocks core core.encryptInPlaceBlock s (asChunks inOut)
  let (s, back) ← encryptLast core s (remainder inOut)
  some (s, front ++ back)

def decryptBody (core : Core σ) (s : σ) (inOut : Bytes) : Option (σ × Bytes) := do
  let (s, front) := AsconAead128.blocks core core.decryptInPlaceBlock s (asChunks inOut)
  let (s, back) ← AsconAead128.decryptRemainder core s (remainder inOut)
  some (s, front ++ back)

structure BodyUndone (core : Core σ) (s t : σ) (plaintext ciphertext : Bytes) : Prop where
  length_eq : plaintext.length = ciphertext.length
  encrypts : encryptBody core s plaintext = some (t, ciphertext)
  decrypts : decryptBody core s ciphertext = some (t, plaintext)

theorem encryptBody_undone (laws : RateLaws core) (s : σ) (plaintext : Bytes) :
    ∃ t ciphertext, BodyUndone core s t plaintext ciphertext := by
  obtain ⟨chunks, rest, hrest, rfl⟩ := exists_joined plaintext
  obtain ⟨t, outs, hlength, hstep, hback⟩ := blocks_undone core laws.decrypt_encrypt s chunks
  obtain ⟨out, hout, henc, hdec⟩ := laws.encrypt_last t rest hrest
  refine ⟨core.xorRate128Bytes t (padBlock rest), joined outs ++ out, ⟨?_, ?_, ?_⟩⟩
  · rw [List.length_append, List.length_append, joined_length, joined_length, hlength, hout]
  · rw [encryptBody, asChunks_joined chunks hrest, remainder_joined chunks hrest, hstep]
    simp only [henc, Option.bind_eq_bind, Option.bind_some]
  · rw [decryptBody, asChunks_joined outs (by omega), remainder_joined outs (by omega), hback]
    simp only [hdec, Option.bind_eq_bind, Option.bind_some]

theorem decryptBody_undone (laws : RateLaws core) (s : σ) (ciphertext : Bytes) :
    ∃ t plaintext, BodyUndone core s t plaintext ciphertext := by
  obtain ⟨chunks, rest, hrest, rfl⟩ := exists_joined ciphertext
  obtain ⟨t, outs, hlength, hstep, hback⟩ := blocks_undone core laws.encrypt_decrypt s chunks
  obtain ⟨out, hout, henc, hdec⟩ := laws.decrypt_last t rest hrest
  refine ⟨core.xorRate128Bytes t (padBlock out), joined outs ++ out, ⟨?_, ?_, ?_⟩⟩
  · rw [List.length_append, List.length_append, joined_length, joined_length, hlength, hout]
  · rw [encryptBody, asChunks_joined outs (by omega), remainder_joined outs (by omega), hback]
    simp only [henc, Option.bind_eq_bind, Option.bind_some]
  · rw [decryptBody, asChunks_joined chunks hrest, remainder_joined chunks hrest, hstep]
    simp only [hdec, Option.bind_eq_bind, Option.bind_some]

/-! ## The states are those of the transcript -/

theorem absorbAll_append (core : Core σ) (s : σ) (front : List Absorbed) {back : List Absorbed}
    (h : back ≠ []) : absorbAll core s (front ++ back) =
      absorbAll core (front.foldl (fun s item => core.p8 (absorb core s item)) s) back := by
  induction front generalizing s with
  | nil => rfl
  | cons item front ih =>
    have hne : front ++ back ≠ [] := by simp [h]
    cases hrest : front ++ back with
    | nil => exact absurd hrest hne
    | cons next rest => rw [List.cons_append, hrest, absorbAll, ← hrest, ih, List.foldl_cons]

theorem blocks_state (laws : RateLaws core) (s : σ) (chunks : List (FixedBytes 16)) :
    (AsconAead128.blocks core core.encryptInPlaceBlock s chunks).1 =
      (chunks.map (Absorbed.mk false)).foldl (fun s item => core.p8 (absorb core s item)) s := by
  induction chunks generalizing s with
  | nil => rfl
  | cons chunk chunks ih =>
    rw [List.map_cons, List.foldl_cons]
    simp only [AsconAead128.blocks, laws.encrypt_state, ih]
    rfl

theorem encryptBody_state (laws : RateLaws core) {s t : σ} {plaintext ciphertext : Bytes}
    (h : encryptBody core s plaintext = some (t, ciphertext)) :
    t = absorbAll core s ((padBlocks plaintext).map (Absorbed.mk false)) := by
  obtain ⟨chunks, rest, hrest, rfl⟩ := exists_joined plaintext
  have hstate := blocks_state laws s chunks
  rw [encryptBody, asChunks_joined chunks hrest, remainder_joined chunks hrest] at h
  rw [padBlocks, asChunks_joined chunks hrest, remainder_joined chunks hrest, List.map_append,
    absorbAll_append core s _ (by simp), ← hstate]
  cases hblocks : AsconAead128.blocks core core.encryptInPlaceBlock s chunks with
  | mk u front =>
    obtain ⟨out, -, henc, -⟩ := laws.encrypt_last u rest hrest
    simp only [hblocks, henc, Option.bind_eq_bind, Option.bind_some, Option.some.injEq,
      Prod.mk.injEq] at h
    exact h.1.symm

theorem absorbAll_separate (core : Core σ) (s : σ) (blocks : List (FixedBytes 16))
    (h : blocks ≠ []) : absorbAll core s (separate blocks) =
      absorbAll core (core.applyDomainSep s) (blocks.map (Absorbed.mk false)) := by
  cases blocks with
  | nil => exact absurd rfl h
  | cons first rest =>
    cases rest with
    | nil => rfl
    | cons next rest => rfl

theorem foldl_xorRate (core : Core σ) (s : σ) (chunks : List (FixedBytes 16)) :
    chunks.foldl (fun s chunk => core.p8 (core.xorRate128Bytes s chunk)) s =
      (chunks.map (Absorbed.mk false)).foldl (fun s item => core.p8 (absorb core s item)) s := by
  rw [List.foldl_map]
  rfl

theorem processAd_state (laws : RateLaws core) (s : σ) (aad : Bytes) :
    AsconAead128.processAd core s aad =
      some (((if aad = [] then [] else padBlocks aad).map (Absorbed.mk false)).foldl
        (fun s item => core.p8 (absorb core s item)) s) := by
  unfold AsconAead128.processAd
  split
  · rfl
  · obtain ⟨chunks, rest, hrest, rfl⟩ := exists_joined aad
    rw [padBlocks, asChunks_joined chunks hrest, remainder_joined chunks hrest, foldl_xorRate,
      List.map_append, List.foldl_append]
    generalize (chunks.map (Absorbed.mk false)).foldl _ s = u
    have hlast := laws.absorb_last u rest hrest
    cases hrem : AsconAead128.absorbRemainder core u rest with
    | none => simp [hrem] at hlast
    | some v =>
      rw [hrem, Option.bind_some] at hlast
      simp only [Option.bind_eq_bind, hrem, hlast, Option.bind_some]
      rfl

/-! ## The whole calls -/

theorem remainder_length (data : Bytes) : (remainder data).length = data.length % 16 := by
  rw [remainder, List.length_drop]
  omega

theorem initState_total (laws : RateLaws core) (aead : AsconAead128) (nonce : FixedBytes 16) :
    ∃ s, AsconAead128.initState core aead nonce = some s := by
  obtain ⟨s, hs⟩ := laws.xorWord_total
    (core.p12 (core.initAead aead.key nonce aead.iv)) 3 aead.k0 (by decide)
  obtain ⟨t, ht⟩ := laws.xorWord_total s 4 aead.k1 (by decide)
  exact ⟨t, by simp [AsconAead128.initState, hs, ht]⟩

theorem finish_total (laws : RateLaws core) (aead : AsconAead128) (s : σ) :
    ∃ t, AsconAead128.finish core aead s = some t := by
  obtain ⟨t, ht⟩ := laws.xorWord_total s 2 aead.k0 (by decide)
  obtain ⟨u, hu⟩ := laws.xorWord_total t 3 aead.k1 (by decide)
  exact ⟨core.p12 u, by simp [AsconAead128.finish, ht, hu]⟩

theorem computeTag_length (core : Core σ) (aead : AsconAead128) (s : σ) :
    (AsconAead128.computeTag core aead s).length = 16 := by
  simp [AsconAead128.computeTag]

def prepare (core : Core σ) (aead : AsconAead128) (nonce : FixedBytes 16) (aad : Bytes) :
    Option σ := do
  let s ← AsconAead128.initState core aead nonce
  let s ← AsconAead128.processAd core s aad
  some (core.applyDomainSep s)

theorem encryptInPlace_eq (core : Core σ) (aead : AsconAead128) (inOut aad : Bytes)
    (nonce : FixedBytes 16) :
    AsconAead128.encryptInPlace core aead inOut nonce.octets aad =
      (prepare core aead nonce aad).bind fun s => (encryptBody core s inOut).bind fun (t, out) =>
        (AsconAead128.finish core aead t).map fun u =>
          (AsconAead128.computeTag core aead u, out) := by
  rw [AsconAead128.encryptInPlace, dif_pos nonce.length_eq]
  simp only [prepare, encryptBody, encryptLast, remainder_length, Option.bind_eq_bind,
    Option.bind_assoc, Option.bind_some, Option.map_eq_bind, Function.comp_apply]

theorem decryptInPlace_eq (core : Core σ) (aead : AsconAead128) (inOut aad tag : Bytes)
    (nonce : FixedBytes 16) (htag : tag.length = 16) :
    AsconAead128.decryptInPlace core aead inOut nonce.octets aad tag =
      (prepare core aead nonce aad).bind fun s => (decryptBody core s inOut).bind fun (t, out) =>
        (AsconAead128.finish core aead t).map fun u =>
          if AsconAead128.computeTag core aead u = tag then (.ok (), out)
          else (.error .invalidCiphertext, List.replicate inOut.length 0) := by
  rw [AsconAead128.decryptInPlace, if_neg (not_not.mpr htag), dif_pos nonce.length_eq]
  simp only [prepare, decryptBody, Option.bind_eq_bind, Option.bind_assoc, Option.bind_some,
    Option.map_eq_bind, Function.comp_apply, apply_ite]

theorem prepare_total (laws : RateLaws core) (aead : AsconAead128) (nonce : FixedBytes 16)
    (aad : Bytes) : ∃ s, AsconAead128.initState core aead nonce = some s ∧
      prepare core aead nonce aad = some (core.applyDomainSep
        (((if aad = [] then [] else padBlocks aad).map (Absorbed.mk false)).foldl
          (fun s item => core.p8 (absorb core s item)) s)) := by
  obtain ⟨s, hs⟩ := initState_total laws aead nonce
  refine ⟨s, hs, ?_⟩
  rw [prepare, hs]
  simp only [Option.bind_eq_bind, Option.bind_some, processAd_state laws]

theorem calls_eq {aead : AsconAead128} {nonce : FixedBytes 16} {aad plaintext ciphertext : Bytes}
    {s t u : σ} (hprepare : prepare core aead nonce aad = some s)
    (hbody : BodyUndone core s t plaintext ciphertext)
    (hfinish : AsconAead128.finish core aead t = some u) :
    AsconAead128.encryptInPlace core aead plaintext nonce.octets aad =
        some (AsconAead128.computeTag core aead u, ciphertext) ∧
      ∀ tag, AsconAead128.decryptInPlace core aead ciphertext nonce.octets aad tag = some
        (if tag = AsconAead128.computeTag core aead u then (.ok (), plaintext)
        else (.error .invalidCiphertext,
          if tag.length = 16 then List.replicate ciphertext.length 0 else ciphertext)) := by
  constructor
  · rw [encryptInPlace_eq, hprepare, Option.bind_some, hbody.encrypts, Option.bind_some]
    simp only [hfinish, Option.map_some]
  · intro tag
    have hlength := computeTag_length core aead u
    by_cases htag : tag.length = 16
    · rw [decryptInPlace_eq core aead _ _ _ nonce htag, hprepare, Option.bind_some,
        hbody.decrypts, Option.bind_some]
      simp only [hfinish, Option.map_some, if_pos htag, eq_comm]
    · have hne : tag ≠ AsconAead128.computeTag core aead u := by
        intro heq
        rw [heq] at htag
        exact htag hlength
      rw [AsconAead128.decryptInPlace, if_pos htag, if_neg hne, if_neg htag]

end

/-- Encryption and decryption of a core undo each other, and the tag is that of the
absorbed sequence. -/
structure RoundTrips {σ : Type} (core : Core σ) : Prop where
  decrypts : ∀ (aead : AsconAead128) (plaintext aad : Bytes) (nonce : FixedBytes 16),
    ∃ ciphertext tag, ciphertext.length = plaintext.length ∧ tag.length = 16 ∧
      aead.encryptInPlace core plaintext nonce.octets aad = some (tag, ciphertext) ∧
      aead.decryptInPlace core ciphertext nonce.octets aad tag = some (.ok (), plaintext)
  rejects : ∀ (aead : AsconAead128) (ciphertext aad : Bytes) (nonce : FixedBytes 16),
    ∃ plaintext tag, plaintext.length = ciphertext.length ∧ tag.length = 16 ∧
      aead.encryptInPlace core plaintext nonce.octets aad = some (tag, ciphertext) ∧
      ∀ other, aead.decryptInPlace core ciphertext nonce.octets aad other = some
        (if other = tag then (.ok (), plaintext)
        else (.error .invalidCiphertext,
          if other.length = 16 then List.replicate ciphertext.length 0 else ciphertext))
  absorbs : ∀ (aead : AsconAead128) (plaintext aad : Bytes) (nonce : FixedBytes 16),
    ∃ start final, aead.initState core nonce = some start ∧
      aead.finish core (absorbAll core start (transcript aad plaintext)) = some final ∧
      (aead.encryptInPlace core plaintext nonce.octets aad).map Prod.fst =
        some (aead.computeTag core final)

theorem roundTrips_of_rateLaws {σ : Type} {core : Core σ} (laws : RateLaws core) :
    RoundTrips core where
  decrypts aead plaintext aad nonce := by
    obtain ⟨s, -, hprepare⟩ := prepare_total laws aead nonce aad
    obtain ⟨t, ciphertext, hbody⟩ := encryptBody_undone laws _ plaintext
    obtain ⟨u, hfinish⟩ := finish_total laws aead t
    obtain ⟨hencrypt, hdecrypt⟩ := calls_eq hprepare hbody hfinish
    refine ⟨ciphertext, _, hbody.length_eq.symm, computeTag_length core aead u, hencrypt, ?_⟩
    rw [hdecrypt, if_pos rfl]
  rejects aead ciphertext aad nonce := by
    obtain ⟨s, -, hprepare⟩ := prepare_total laws aead nonce aad
    obtain ⟨t, plaintext, hbody⟩ := decryptBody_undone laws _ ciphertext
    obtain ⟨u, hfinish⟩ := finish_total laws aead t
    obtain ⟨hencrypt, hdecrypt⟩ := calls_eq hprepare hbody hfinish
    exact ⟨plaintext, _, hbody.length_eq, computeTag_length core aead u, hencrypt, hdecrypt⟩
  absorbs aead plaintext aad nonce := by
    obtain ⟨s, hinit, hprepare⟩ := prepare_total laws aead nonce aad
    obtain ⟨t, ciphertext, hbody⟩ := encryptBody_undone laws _ plaintext
    obtain ⟨u, hfinish⟩ := finish_total laws aead t
    obtain ⟨hencrypt, -⟩ := calls_eq hprepare hbody hfinish
    have hne : separate (padBlocks plaintext) ≠ [] := by
      cases hpad : padBlocks plaintext with
      | nil => exact absurd hpad (padBlocks_ne_nil plaintext)
      | cons first rest => simp [separate]
    have hstate : absorbAll core s (transcript aad plaintext) = t := by
      rw [transcript, absorbAll_append core s _ hne,
        absorbAll_separate core _ _ (padBlocks_ne_nil plaintext),
        encryptBody_state laws hbody.encrypts]
    exact ⟨s, u, hinit, by rw [hstate, hfinish], by rw [hencrypt]; rfl⟩

/-! ## The other core -/

theorem interleave_carries_permutation (checks : Bool) (p8 p12 : Ascon32b.State → Ascon32b.State) :
    ∃ q8 q12, Carries interleave ((core64b checks).withPermutation q8 q12)
      ((core32b checks).withPermutation p8 p12) := by
  have hright := Function.surjInv_eq interleave_bijective.2
  have hcarries := interleave_carries checks
  refine ⟨fun s => Function.surjInv interleave_bijective.2 (p8 (interleave s)),
    fun s => Function.surjInv interleave_bijective.2 (p12 (interleave s)), ?_⟩
  exact {
    hcarries with
    p8 := fun s => (hright _).symm
    p12 := fun s => (hright _).symm }

theorem absorbAll_carries {σ τ : Type} {f : σ → τ} {c : Core σ} {d : Core τ}
    (h : Carries f c d) (s : σ) (items : List Absorbed) :
    absorbAll d (f s) items = f (absorbAll c s items) := by
  have habsorb (s : σ) (item : Absorbed) : absorb d (f s) item = f (absorb c s item) := by
    unfold absorb
    split
    · rw [h.applyDomainSep, h.xorRate128Bytes]
    · rw [h.xorRate128Bytes]
  induction items generalizing s with
  | nil => rfl
  | cons item items ih =>
    cases items with
    | nil => exact habsorb s item
    | cons next rest => rw [absorbAll, absorbAll, habsorb, h.p8, ih]

theorem roundTrips_carries {σ τ : Type} {f : σ → τ} {c : Core σ} {d : Core τ}
    (h : Carries f c d) (hc : RoundTrips c) : RoundTrips d where
  decrypts aead plaintext aad nonce := by
    simp only [AsconAead128.encryptInPlace_carries h, AsconAead128.decryptInPlace_carries h]
    exact hc.decrypts aead plaintext aad nonce
  rejects aead ciphertext aad nonce := by
    simp only [AsconAead128.encryptInPlace_carries h, AsconAead128.decryptInPlace_carries h]
    exact hc.rejects aead ciphertext aad nonce
  absorbs aead plaintext aad nonce := by
    obtain ⟨start, final, hinit, hfinish, htag⟩ := hc.absorbs aead plaintext aad nonce
    refine ⟨f start, f final, ?_, ?_, ?_⟩
    · rw [AsconAead128.initState_carries h, hinit, Option.map_some]
    · rw [absorbAll_carries h, AsconAead128.finish_carries h, hfinish, Option.map_some]
    · rw [AsconAead128.encryptInPlace_carries h, htag, AsconAead128.computeTag_carries h]

/-- Encryption and decryption undo each other over both cores, whatever the permutation
does; another tag of sixteen octets leaves zeros, one of another length is refused in front of
the decryption. -/
theorem aead_round_trip (checks : Bool) :
    (∀ p8 p12, RoundTrips ((core64b checks).withPermutation p8 p12)) ∧
      (∀ p8 p12, RoundTrips ((core32b checks).withPermutation p8 p12)) ∧
      Function.Injective2 transcript := by
  refine ⟨fun p8 p12 => roundTrips_of_rateLaws (Ascon64b.rateLaws checks p8 p12), ?_,
    transcript_inj⟩
  intro p8 p12
  obtain ⟨q8, q12, hcarries⟩ := interleave_carries_permutation checks p8 p12
  exact roundTrips_carries hcarries (roundTrips_of_rateLaws (Ascon64b.rateLaws checks q8 q12))

/-- No octet of the buffer changes for a tag that is too short. -/
theorem short_tag_keeps_buffer :
    ¬ ∀ (aead : AsconAead128) (ciphertext aad tag : Bytes) (nonce : FixedBytes 16),
      (∃ plaintext expected,
        aead.encryptInPlace (core64b true) plaintext nonce.octets aad =
          some (expected, ciphertext) ∧ tag ≠ expected) →
      aead.decryptInPlace (core64b true) ciphertext nonce.octets aad tag =
        some (.error .invalidCiphertext, List.replicate ciphertext.length 0) := by
  intro hall
  have hround := roundTrips_of_rateLaws
    (Ascon64b.rateLaws true (p8 Ascon64b.round) (p12 Ascon64b.round))
  obtain ⟨plaintext, tag, -, htag, hencrypt, -⟩ :=
    hround.rejects (.new (.zeroed 16)) [0x01] [] (.zeroed 16)
  have hne : [] ≠ tag := by
    rintro rfl
    simp at htag
  have hzero := hall (.new (.zeroed 16)) [0x01] [] [] (.zeroed 16) ⟨plaintext, tag, hencrypt, hne⟩
  have hkept : (AsconAead128.new (.zeroed 16)).decryptInPlace (core64b true) [0x01]
      (FixedBytes.zeroed 16).octets [] [] = some (.error .invalidCiphertext, [0x01]) := rfl
  rw [hkept] at hzero
  simp at hzero

end Stdx.Ascon

import Stdx.Hpke.Context

/-!
# The HPKE channel

Both contexts of one exchange, with the messages sealed, the plaintexts opened and the
secrets exported so far.  The two sides act in any order.
-/

namespace Stdx.Hpke

open Stdx.Foundation

/-! ## One operation -/

section

variable {A : Aead}

/-- What a successful `seal` did. -/
structure Sealed (c : Context A) (plaintext associatedData ciphertext : Bytes)
    (c' : Context A) : Prop where
  supported : 8 ≤ A.nonceSize ∧ A.tagSize ≠ 0
  notLast : c.sequenceNumber ≠ MAX_SEQUENCE_NUMBER
  encrypted : ∃ out tag, A.encryptInPlace c.aead plaintext c.nonce associatedData = .ok (out, tag) ∧
    ciphertext = out ++ tag
  next : c' = { c with sequenceNumber := c.sequenceNumber + 1 }

theorem Context.seal_cases (c : Context A) (plaintext associatedData : Bytes) :
    (∃ ciphertext c', c.seal plaintext associatedData = (.ok ciphertext, c') ∧
        Sealed c plaintext associatedData ciphertext c') ∨
      ∃ err, c.seal plaintext associatedData = (.error err, c) := by
  unfold Context.seal Context.sealInPlace
  by_cases hsupported : A.nonceSize < 8 ∨ A.tagSize = 0
  · exact .inr ⟨_, by rw [if_pos hsupported]⟩
  rw [if_neg hsupported]
  by_cases hsize : A.maxPlaintextSize.toNat < plaintext.length
  · exact .inr ⟨_, by rw [if_pos hsize]⟩
  rw [if_neg hsize]
  by_cases hlast : c.sequenceNumber = MAX_SEQUENCE_NUMBER
  · exact .inr ⟨_, by rw [if_pos hlast]⟩
  rw [if_neg hlast]
  cases hencrypt : A.encryptInPlace c.aead plaintext c.nonce associatedData with
  | error err => exact .inr ⟨err, rfl⟩
  | ok result =>
    obtain ⟨out, tag⟩ := result
    refine .inl ⟨_, _, rfl, ⟨by omega, ?_⟩, hlast, ⟨out, tag, hencrypt, rfl⟩, rfl⟩
    exact fun h => hsupported (.inr h)

/-- What a successful `open` did. -/
structure Opened (c : Context A) (ciphertext associatedData plaintext : Bytes)
    (c' : Context A) : Prop where
  long : A.tagSize ≤ ciphertext.length
  decrypted : A.decryptInPlace c.aead (ciphertext.take (ciphertext.length - A.tagSize)) c.nonce
    associatedData (ciphertext.drop (ciphertext.length - A.tagSize)) = .ok plaintext
  notLast : c.sequenceNumber ≠ MAX_SEQUENCE_NUMBER
  next : c' = { c with sequenceNumber := c.sequenceNumber + 1 }

theorem Context.open_cases (c : Context A) (ciphertext associatedData : Bytes) :
    (∃ plaintext c', c.open ciphertext associatedData = (.ok plaintext, c') ∧
        Opened c ciphertext associatedData plaintext c') ∨
      ∃ err, c.open ciphertext associatedData = (.error err, c) := by
  unfold Context.open Context.openInPlace
  by_cases hlong : ciphertext.length < A.tagSize
  · exact .inr ⟨_, by rw [if_pos hlong]⟩
  rw [if_neg hlong]
  by_cases hsupported : A.nonceSize < 8 ∨ A.tagSize = 0
  · exact .inr ⟨_, by rw [if_pos hsupported]⟩
  rw [if_neg hsupported]
  split
  · exact .inr ⟨_, rfl⟩
  · cases hdecrypt : A.decryptInPlace c.aead
        (ciphertext.take (ciphertext.length - A.tagSize)) c.nonce associatedData
        (ciphertext.drop (ciphertext.length - A.tagSize)) with
    | error err => exact .inr ⟨err, rfl⟩
    | ok plaintext =>
      by_cases hlast : c.sequenceNumber = MAX_SEQUENCE_NUMBER
      · exact .inr ⟨.messageLimitReached, by simp only [if_pos hlast]⟩
      · exact .inl ⟨plaintext, _, by simp only [if_neg hlast],
          Nat.not_lt.mp hlong, hdecrypt, hlast, rfl⟩

theorem Context.open_of_decrypt (c : Context A) {ciphertext associatedData plaintext : Bytes}
    (hsupported : 8 ≤ A.nonceSize ∧ A.tagSize ≠ 0) (hlong : A.tagSize ≤ ciphertext.length)
    (hsize : ciphertext.length ≤ A.maxCiphertextSize.toNat)
    (hdecrypt : A.decryptInPlace c.aead (ciphertext.take (ciphertext.length - A.tagSize)) c.nonce
      associatedData (ciphertext.drop (ciphertext.length - A.tagSize)) = .ok plaintext)
    (hlast : c.sequenceNumber ≠ MAX_SEQUENCE_NUMBER) :
    (c.open ciphertext associatedData).1 = .ok plaintext := by
  have hlength : (ciphertext.take (ciphertext.length - A.tagSize)).length +
      (ciphertext.drop (ciphertext.length - A.tagSize)).length = ciphertext.length := by
    rw [List.length_take, List.length_drop]
    omega
  unfold Context.open Context.openInPlace
  rw [if_neg (Nat.not_lt.mpr hlong), if_neg (by omega), hlength, if_neg (by omega)]
  simp only [hdecrypt, if_neg hlast]

theorem Context.open_error {c c' : Context A} {ciphertext associatedData : Bytes}
    {err : HpkeError} (h : c.open ciphertext associatedData = (.error err, c')) : c' = c := by
  obtain ⟨_, _, hopen, _⟩ | ⟨_, hopen⟩ := c.open_cases ciphertext associatedData
  · rw [hopen] at h
    cases h
  · rw [hopen] at h
    cases h
    rfl

theorem Context.seal_exhausted (c : Context A) (plaintext associatedData : Bytes)
    (hlast : c.sequenceNumber = MAX_SEQUENCE_NUMBER) (hsupported : 8 ≤ A.nonceSize)
    (htag : A.tagSize ≠ 0) :
    c.seal plaintext associatedData = (.error .messageLimitReached, c) := by
  unfold Context.seal Context.sealInPlace
  rw [if_neg (by omega)]
  by_cases hsize : A.maxPlaintextSize.toNat < plaintext.length
  · rw [if_pos hsize]
  · rw [if_neg hsize, if_pos hlast]

end

/-! ## The channel -/

structure Message where
  plaintext : Bytes
  associatedData : Bytes
  nonce : Bytes
  ciphertext : Bytes

structure Export where
  n : Nat
  exporterContext : Bytes
  result : Except HpkeError Bytes

structure Channel (A : Aead) where
  sender : Context A
  recipient : Context A
  sealed : List Message
  opened : List Bytes
  senderExports : List Export
  recipientExports : List Export

inductive Op where
  | seal (plaintext associatedData : Bytes)
  | «open» (ciphertext associatedData : Bytes)
  | senderExport (n : Nat) (exporterContext : Bytes)
  | recipientExport (n : Nat) (exporterContext : Bytes)

section

variable (D : Kdf) {A : Aead}

def Context.exported (c : Context A) (n : Nat) (exporterContext : Bytes) :
    Except HpkeError Bytes :=
  (c.export D n exporterContext).map FixedBytes.octets

def Channel.start (sender recipient : Context A) : Channel A := ⟨sender, recipient, [], [], [], []⟩

def Channel.step (ch : Channel A) : Op → Option (Channel A)
  | .seal plaintext associatedData =>
    match ch.sender.seal plaintext associatedData with
    | (.error _, sender) => some { ch with sender }
    | (.ok ciphertext, sender) =>
      some { ch with
        sender
        sealed := ch.sealed ++ [⟨plaintext, associatedData, ch.sender.nonce, ciphertext⟩] }
  | .open ciphertext associatedData =>
    match ch.recipient.open ciphertext associatedData with
    | (.error _, recipient) => some { ch with recipient }
    | (.ok plaintext, recipient) => some { ch with recipient, opened := ch.opened ++ [plaintext] }
  | .senderExport n exporterContext =>
    some { ch with
      senderExports :=
        ch.senderExports ++ [⟨n, exporterContext, ch.sender.exported D n exporterContext⟩] }
  | .recipientExport n exporterContext =>
    some { ch with
      recipientExports :=
        ch.recipientExports ++ [⟨n, exporterContext, ch.recipient.exported D n exporterContext⟩] }

def Channel.InOrder (ch : Channel A) : Op → Prop
  | .open ciphertext associatedData =>
    (∃ message, ch.sealed[ch.opened.length]? = some message ∧
      message.ciphertext = ciphertext ∧ message.associatedData = associatedData) ∨
    ∃ err, (ch.recipient.open ciphertext associatedData).1 = .error err
  | _ => True

/-- What the two sides share from the start. -/
structure Agree (sender recipient : Context A) : Prop where
  aead : recipient.aead = sender.aead
  suiteId : recipient.suiteId = sender.suiteId
  baseNonce : recipient.baseNonce = sender.baseNonce
  exporterSecret : recipient.exporterSecret = sender.exporterSecret

def Context.nonceAt (c : Context A) (i : Nat) : Bytes :=
  (computeNonce A c.baseNonce (UInt64.ofNat i)).take A.nonceSize

structure Genuine (c : Context A) (i : Nat) (message : Message) : Prop where
  supported : 8 ≤ A.nonceSize ∧ A.tagSize ≠ 0
  number : i < 2 ^ 64 - 1
  nonce : message.nonce = c.nonceAt i
  encrypted : ∃ out tag, A.encryptInPlace c.aead message.plaintext message.nonce
    message.associatedData = .ok (out, tag) ∧ message.ciphertext = out ++ tag

structure Channel.Inv (ch : Channel A) : Prop where
  agree : Agree ch.sender ch.recipient
  sent : ch.sender.sequenceNumber.toNat = ch.sealed.length
  received : ch.recipient.sequenceNumber.toNat = ch.opened.length
  le : ch.opened.length ≤ ch.sealed.length
  opened_eq : ch.opened = (ch.sealed.map (·.plaintext)).take ch.opened.length
  genuine : ∀ i message, ch.sealed[i]? = some message → Genuine ch.sender i message
  senderExports : ∀ e ∈ ch.senderExports, e.result = ch.sender.exported D e.n e.exporterContext
  recipientExports : ∀ e ∈ ch.recipientExports,
    e.result = ch.sender.exported D e.n e.exporterContext

variable {D} in
theorem Channel.Inv.start {sender recipient : Context A} (hagree : Agree sender recipient)
    (hsender : sender.sequenceNumber = 0) (hrecipient : recipient.sequenceNumber = 0) :
    (Channel.start sender recipient).Inv D where
  agree := hagree
  sent := by simp [Channel.start, hsender]
  received := by simp [Channel.start, hrecipient]
  le := by simp [Channel.start]
  opened_eq := by simp [Channel.start]
  genuine := by simp [Channel.start]
  senderExports := by simp [Channel.start]
  recipientExports := by simp [Channel.start]

theorem sequenceNumber_succ {n : UInt64} (h : n ≠ MAX_SEQUENCE_NUMBER) :
    (n + 1).toNat = n.toNat + 1 ∧ n.toNat < 2 ^ 64 - 1 := by
  have hlt := n.toNat_lt
  have hne : n.toNat ≠ 2 ^ 64 - 1 := fun heq => h (UInt64.toNat_inj.mp heq)
  rw [UInt64.toNat_add]
  simp only [UInt64.toNat_one]
  omega

theorem Context.exported_congr {c c' : Context A} (hsuite : c'.suiteId = c.suiteId)
    (hsecret : c'.exporterSecret = c.exporterSecret) (n : Nat) (exporterContext : Bytes) :
    c'.exported D n exporterContext = c.exported D n exporterContext := by
  unfold Context.exported Context.export
  rw [hsuite, hsecret]

theorem Context.nonce_eq (c : Context A) {n : Nat} (h : c.sequenceNumber.toNat = n) :
    c.nonce = c.nonceAt n := by
  unfold Context.nonce Context.nonceAt
  rw [← h, UInt64.ofNat_toNat]

variable {D}

theorem Channel.Inv.seal {ch ch' : Channel A} {plaintext associatedData : Bytes}
    (hinv : ch.Inv D) (h : ch.step D (.seal plaintext associatedData) = some ch') :
    ch'.Inv D := by
  unfold Channel.step at h
  obtain ⟨ciphertext, sender, hseal, hsealed⟩ | ⟨err, hseal⟩ :=
    ch.sender.seal_cases plaintext associatedData
  · simp only [hseal, Option.some.injEq] at h
    obtain ⟨hsupported, hlast, hencrypted, rfl⟩ := hsealed
    obtain ⟨hsucc, hlt⟩ := sequenceNumber_succ hlast
    have hsent := hinv.sent
    have hle := hinv.le
    subst h
    refine ⟨⟨hinv.agree.aead, hinv.agree.suiteId, hinv.agree.baseNonce,
      hinv.agree.exporterSecret⟩, ?_, hinv.received, ?_, ?_, ?_, hinv.senderExports,
      hinv.recipientExports⟩
    · simp only [List.length_append, List.length_singleton, hsucc, hsent]
    · simp only [List.length_append, List.length_singleton]
      omega
    · rw [List.map_append, List.take_append_of_le_length (by simpa using hle)]
      exact hinv.opened_eq
    · intro i message hi
      rw [List.getElem?_append] at hi
      split at hi
      · exact ⟨(hinv.genuine i message hi).supported, (hinv.genuine i message hi).number,
          (hinv.genuine i message hi).nonce, (hinv.genuine i message hi).encrypted⟩
      · rw [List.getElem?_singleton] at hi
        split at hi
        case isFalse => cases hi
        obtain rfl := Option.some.inj hi
        obtain rfl : i = ch.sealed.length := by omega
        exact ⟨hsupported, by omega, ch.sender.nonce_eq hsent, hencrypted⟩
  · simp only [hseal, Option.some.injEq] at h
    subst h
    exact hinv

theorem Channel.Inv.decrypts_next {ch : Channel A} (hA : A.Lawful) (hinv : ch.Inv D)
    {message : Message} (hmessage : ch.sealed[ch.opened.length]? = some message) :
    A.tagSize ≤ message.ciphertext.length ∧
      A.decryptInPlace ch.recipient.aead
        (message.ciphertext.take (message.ciphertext.length - A.tagSize)) ch.recipient.nonce
        message.associatedData
        (message.ciphertext.drop (message.ciphertext.length - A.tagSize)) =
          .ok message.plaintext := by
  obtain ⟨hsupported, hnumber, hnonce, out, tag, hencrypted, hciphertext⟩ :=
    hinv.genuine _ _ hmessage
  obtain ⟨_, htag⟩ := hA.encrypt_length hencrypted
  have hlength : message.ciphertext.length = out.length + A.tagSize := by
    rw [hciphertext, List.length_append, htag]
  have hsplit : message.ciphertext.length - A.tagSize = out.length := by omega
  have hsame : ch.recipient.nonce = message.nonce := by
    rw [hnonce, ch.recipient.nonce_eq hinv.received]
    unfold Context.nonceAt
    rw [hinv.agree.baseNonce]
  refine ⟨by omega, ?_⟩
  rw [hsplit, hciphertext, List.take_left, List.drop_left, hsame, hinv.agree.aead]
  exact hA.decrypt_encrypt hencrypted

theorem Channel.Inv.open {ch ch' : Channel A} {ciphertext associatedData : Bytes}
    (hA : A.Lawful) (hinv : ch.Inv D) (horder : ch.InOrder (.open ciphertext associatedData))
    (h : ch.step D (.open ciphertext associatedData) = some ch') : ch'.Inv D := by
  unfold Channel.step at h
  obtain ⟨plaintext, recipient, hopen, hopened⟩ | ⟨err, hopen⟩ :=
    ch.recipient.open_cases ciphertext associatedData
  · simp only [hopen, Option.some.injEq] at h
    obtain ⟨message, hmessage, rfl, rfl⟩ | ⟨err, herr⟩ := horder
    · have hnextOpened := (hinv.decrypts_next hA hmessage).2
      obtain ⟨_, hdecrypted, hlast, rfl⟩ := hopened
      have hplaintext : plaintext = message.plaintext :=
        Except.ok.inj (hdecrypted.symm.trans hnextOpened)
      obtain ⟨hsucc, hlt⟩ := sequenceNumber_succ hlast
      have hreceived := hinv.received
      have hnext : ch.opened.length < ch.sealed.length :=
        (List.getElem?_eq_some_iff.mp hmessage).1
      subst h
      refine ⟨⟨hinv.agree.aead, hinv.agree.suiteId, hinv.agree.baseNonce,
        hinv.agree.exporterSecret⟩, hinv.sent, ?_, ?_, ?_, hinv.genuine, hinv.senderExports,
        hinv.recipientExports⟩
      · simp only [List.length_append, List.length_singleton, hsucc, hreceived]
      · simp only [List.length_append, List.length_singleton]
        omega
      · simp only [List.length_append, List.length_singleton]
        rw [List.take_add_one, ← hinv.opened_eq, List.getElem?_map, hmessage, hplaintext]
        rfl
    · rw [hopen] at herr
      cases herr
  · simp only [hopen, Option.some.injEq] at h
    subst h
    exact hinv

theorem Channel.Inv.step {ch ch' : Channel A} {op : Op} (hA : A.Lawful) (hinv : ch.Inv D)
    (horder : ch.InOrder op) (h : ch.step D op = some ch') : ch'.Inv D := by
  cases op with
  | «seal» plaintext associatedData => exact hinv.seal h
  | «open» ciphertext associatedData => exact hinv.open hA horder h
  | senderExport n exporterContext =>
    obtain rfl := Option.some.inj h
    refine { hinv with senderExports := ?_ }
    intro e he
    obtain he | he := List.mem_append.mp he
    · exact hinv.senderExports e he
    · obtain rfl := List.mem_singleton.mp he
      rfl
  | recipientExport n exporterContext =>
    obtain rfl := Option.some.inj h
    refine { hinv with recipientExports := ?_ }
    intro e he
    obtain he | he := List.mem_append.mp he
    · exact hinv.recipientExports e he
    · obtain rfl := List.mem_singleton.mp he
      exact Context.exported_congr D hinv.agree.suiteId hinv.agree.exporterSecret _ _

theorem Channel.Inv.run {sender recipient : Context A} {ops : List Op} {ch : Channel A}
    (hA : A.Lawful) (hstart : (Channel.start sender recipient).Inv D)
    (horder : Throughout (Channel.step D) Channel.InOrder (Channel.start sender recipient) ops)
    (hrun : exec (Channel.step D) (Channel.start sender recipient) ops = some ch) : ch.Inv D :=
  run_rule (P := fun _ ch => ch.Inv D) hstart
    (fun _ _ _ _ _ hinv hop h => hinv.step hA hop h) horder hrun

/-! ## What follows from the invariant -/

theorem Channel.Inv.nonces_nodup {ch : Channel A} (hinv : ch.Inv D) :
    (ch.sealed.map (·.nonce)).Nodup := by
  rw [List.nodup_iff_getElem?_ne_getElem?]
  intro i j hij hj heq
  rw [List.length_map] at hj
  rw [List.getElem?_map, List.getElem?_map, List.getElem?_eq_getElem hj,
    List.getElem?_eq_getElem (by omega)] at heq
  have hi := hinv.genuine i _ (List.getElem?_eq_getElem (by omega))
  have hj := hinv.genuine j _ (List.getElem?_eq_getElem hj)
  have hnonce : ch.sealed[i].nonce = ch.sealed[j].nonce := Option.some.inj heq
  rw [hi.nonce, hj.nonce] at hnonce
  have hsame := congrArg UInt64.toNat (computeNonce_inj hi.supported.1 hnonce)
  have := hi.number
  have := hj.number
  rw [UInt64.toNat_ofNat', UInt64.toNat_ofNat'] at hsame
  omega

theorem Channel.Inv.next_opens {ch : Channel A} (hA : A.Lawful) (hinv : ch.Inv D)
    {message : Message} (hmessage : ch.sealed[ch.opened.length]? = some message)
    (hsize : message.ciphertext.length ≤ A.maxCiphertextSize.toNat) :
    (ch.recipient.open message.ciphertext message.associatedData).1 =
      .ok message.plaintext := by
  obtain ⟨hlong, hdecrypt⟩ := hinv.decrypts_next hA hmessage
  have hgenuine := hinv.genuine _ _ hmessage
  refine ch.recipient.open_of_decrypt hgenuine.supported hlong hsize hdecrypt ?_
  intro hlast
  have hnumber := hgenuine.number
  rw [← hinv.received, hlast] at hnumber
  exact absurd hnumber (by decide)

end

/-! ## Both sides of an exchange -/

section

theorem ofResult_eq_ok {α : Type} {result : Except HpkeError α} {value : α} :
    ofResult result = .ok value ↔ result = .ok value := by
  cases result with
  | ok _ => simp [ofResult]
  | error _ => simp [ofResult]

theorem setUp_agree {K : Kem} {D : Kdf} {A : Aead} (hK : K.Agrees) {randomness : K.Randomness}
    {mode : Mode} {secretKey : K.SecretKey} {info : Bytes} {encappedKey : K.EncappedKey}
    {sender recipient : Context A}
    (hsender : newSender A K D randomness mode (K.derivePublicKey secretKey) info =
      .ok (encappedKey, sender))
    (hrecipient : newRecipient A K D mode secretKey encappedKey info = .ok recipient) :
    recipient = sender ∧ sender.sequenceNumber = 0 := by
  unfold newSender at hsender
  obtain ⟨parts, hparts, hsender⟩ := Outcome.bind_eq_ok.mp hsender
  obtain ⟨encapped, hencap, hsender⟩ := Outcome.bind_eq_ok.mp hsender
  obtain ⟨context, hsetUp, hsender⟩ := Outcome.bind_eq_ok.mp hsender
  cases hsender
  unfold newRecipient at hrecipient
  obtain ⟨parts', hparts', hrecipient⟩ := Outcome.bind_eq_ok.mp hrecipient
  obtain ⟨sharedSecret, hdecap, hrecipient⟩ := Outcome.bind_eq_ok.mp hrecipient
  obtain rfl := Outcome.ok.inj (hparts.symm.trans hparts')
  have hagree := hK _ _ _ _ (ofResult_eq_ok.mp hencap)
  rw [ofResult_eq_ok.mp hdecap] at hagree
  obtain rfl := Except.ok.inj hagree
  refine ⟨Outcome.ok.inj (hrecipient.symm.trans hsetUp), ?_⟩
  obtain ⟨scheduled, _, hcontext⟩ := Outcome.bind_eq_ok.mp hsetUp
  cases hcontext
  rfl

end

section

variable {A : Aead}

/-- What a run of the channel guarantees. -/
structure Channel.Correct (ch : Channel A) : Prop where
  opened : ch.opened = (ch.sealed.map (·.plaintext)).take ch.opened.length
  opened_le : ch.opened.length ≤ ch.sealed.length
  next : ∀ message, ch.sealed[ch.opened.length]? = some message →
    message.ciphertext.length ≤ A.maxCiphertextSize.toNat →
      (ch.recipient.open message.ciphertext message.associatedData).1 = .ok message.plaintext
  failed : ∀ ciphertext associatedData err recipient,
    ch.recipient.open ciphertext associatedData = (.error err, recipient) →
      recipient = ch.recipient
  nonces : (ch.sealed.map (·.nonce)).Nodup
  count : ch.sender.sequenceNumber.toNat = ch.sealed.length
  exhausted : ch.sealed.length = 2 ^ 64 - 1 → ∀ plaintext associatedData,
    ch.sender.seal plaintext associatedData = (.error .messageLimitReached, ch.sender)
  exports : ∀ e ∈ ch.senderExports, ∀ e' ∈ ch.recipientExports, e.n = e'.n →
    e.exporterContext = e'.exporterContext → e.result = e'.result

theorem Channel.Inv.correct {D : Kdf} {ch : Channel A} (hA : A.Lawful) (hinv : ch.Inv D) :
    ch.Correct where
  opened := hinv.opened_eq
  opened_le := hinv.le
  next := fun _ hmessage hsize => hinv.next_opens hA hmessage hsize
  failed := fun _ _ _ _ h => Context.open_error h
  nonces := hinv.nonces_nodup
  count := hinv.sent
  exhausted := by
    intro hlength plaintext associatedData
    have hsupported := (hinv.genuine 0 _ (List.getElem?_eq_getElem (by omega))).supported
    refine ch.sender.seal_exhausted plaintext associatedData ?_ hsupported.1 hsupported.2
    apply UInt64.toNat_inj.mp
    rw [hinv.sent, hlength]
    rfl
  exports := by
    intro e he e' he' hn hcontext
    rw [hinv.senderExports e he, hinv.recipientExports e' he', hn, hcontext]

/-- Every run between two sides set up with the same mode and info delivers the messages
in order under distinct nonces; and what the single-stage schedule absorbs determines its
inputs. -/
theorem channel_correct {K : Kem} {D : Kdf} {A : Aead} (hK : K.Agrees) (hA : A.Lawful)
    {randomness : K.Randomness} {mode : Mode} {secretKey : K.SecretKey} {info : Bytes}
    {encappedKey : K.EncappedKey} {sender recipient : Context A}
    (hsender : newSender A K D randomness mode (K.derivePublicKey secretKey) info =
      .ok (encappedKey, sender))
    (hrecipient : newRecipient A K D mode secretKey encappedKey info = .ok recipient)
    {ops : List Op} {ch : Channel A}
    (horder : Throughout (Channel.step D) Channel.InOrder (Channel.start sender recipient) ops)
    (hrun : exec (Channel.step D) (Channel.start sender recipient) ops = some ch) :
    ch.Correct ∧
      ∀ modeId sharedSecret info preSharedKey preSharedKeyId modeId' sharedSecret' info'
        preSharedKey' preSharedKeyId',
        WithinLimits sharedSecret info preSharedKey preSharedKeyId →
        WithinLimits sharedSecret' info' preSharedKey' preSharedKeyId' →
        singleStageInput (A.keySize + A.nonceSize + D.outputSize) modeId (ciphersuiteId A K D)
            sharedSecret info preSharedKey preSharedKeyId =
          singleStageInput (A.keySize + A.nonceSize + D.outputSize) modeId'
            (ciphersuiteId A K D) sharedSecret' info' preSharedKey' preSharedKeyId' →
        modeId = modeId' ∧ preSharedKey = preSharedKey' ∧ preSharedKeyId = preSharedKeyId' ∧
          info = info' ∧ sharedSecret = sharedSecret' := by
  obtain ⟨rfl, hzero⟩ := setUp_agree hK hsender hrecipient
  have hstart := Channel.Inv.start (D := D) ⟨rfl, rfl, rfl, rfl⟩ hzero hzero
  refine ⟨(hstart.run hA horder hrun).correct hA, ?_⟩
  intro _ _ _ _ _ _ _ _ _ _ hlimits hlimits' h
  exact singleStageInput_inj hlimits hlimits' h

/-! A run of two operations over an AEAD that leaves the text as it is. -/

def plainAead : Aead where
  Cipher := Unit
  HPKE_AEAD_ID := 0xfffe
  keySize := 0
  tagSize := 1
  nonceSize := 8
  maxPlaintextSize := 1000
  maxCiphertextSize := 1001
  keySize_le := by decide
  nonceSize_le := by decide
  new := fun _ => .ok ()
  encryptInPlace := fun _ inOut _ _ => .ok (inOut, [7])
  decryptInPlace := fun _ inOut _ _ tag => if tag = [7] then .ok inOut else .error .openError

theorem plainAead_lawful : plainAead.Lawful where
  encrypt_length := by
    rintro cipher inOut nonce associatedData out tag ⟨⟩
    exact ⟨rfl, rfl⟩
  decrypt_encrypt := by
    rintro cipher inOut nonce associatedData out tag ⟨⟩
    rfl
  rejects := by
    intro cipher out nonce associatedData tag inOut h
    change (if tag = [7] then Except.ok out else Except.error HpkeError.openError) = _ at h
    split at h
    · next htag =>
      cases h
      rw [htag]
      rfl
    · cases h

def constantKem : Kem where
  HPKE_KEM_ID := 1
  PublicKey := Unit
  SecretKey := Unit
  EncappedKey := Unit
  Randomness := Unit
  derivePublicKey := id
  encap := fun _ _ => .ok ([1], ())
  decap := fun _ _ => .ok [1]

theorem constantKem_agrees : constantKem.Agrees := by
  rintro _ _ _ _ ⟨⟩
  rfl

def constantKdf : Kdf :=
  hkdf (fun _ _ => FixedBytes.zeroed 32) 1 (by decide)

def plainContext : Context plainAead where
  aead := ()
  suiteId := ciphersuiteId plainAead constantKem constantKdf
  baseNonce := FixedBytes.zeroed 64
  sequenceNumber := 0
  exporterSecret := List.replicate 32 0

/-- One message sealed and opened. -/
theorem channel_correct_one_message :
    ∃ ch : Channel plainAead,
      exec (Channel.step constantKdf) (Channel.start plainContext plainContext)
        [.seal [1, 2] [3], .open [1, 2, 7] [3]] = some ch ∧ ch.opened = [[1, 2]] ∧ ch.Correct := by
  have hsender : newSender plainAead constantKem constantKdf () .base () [] =
      .ok ((), plainContext) := rfl
  have hrecipient : newRecipient plainAead constantKem constantKdf .base () () [] =
      .ok plainContext := rfl
  have hfirst : Throughout (Channel.step constantKdf) Channel.InOrder
      (Channel.start plainContext plainContext) ([] ++ [.seal [1, 2] [3]]) :=
    throughout_concat throughout_nil fun _ _ => trivial
  have horder : Throughout (Channel.step constantKdf) Channel.InOrder
      (Channel.start plainContext plainContext)
      ([] ++ [.seal [1, 2] [3]] ++ [.open [1, 2, 7] [3]]) := by
    refine throughout_concat hfirst ?_
    rintro t ⟨⟩
    exact .inl ⟨_, rfl, rfl, rfl⟩
  exact ⟨_, rfl, rfl, (channel_correct constantKem_agrees plainAead_lawful hsender hrecipient
    horder rfl).1⟩

end

end Stdx.Hpke

import ShadowAead.Context
/-
# `ShadowAead.Reference` — the stream format, decoded in one pass

The reference decoder of the specification, written from its description of the wire
format and not from `aead_decrypt`: it is given a whole byte string `S` at once.  The first
`key_len` bytes are the salt, and the subkey is derived from it.  The rest is read chunk by
chunk, chunk `i` being a length block opened under `LE(2i)` and a payload opened under
`LE(2i+1)`.  A chunk that is not wholly present leaves the decoder pending; a length block
or a payload that fails authentication, and a length of `0` or above `0x3FFF`, is an error.

What makes an incremental decoder possible is `decodeChunks_append`: decoding `R ++ X`
is decoding `R`, then resuming on what `R` left pending followed by `X`.  The same lemma
says that an error, once reached, stays whatever bytes follow.
-/

namespace ShadowAead

/-- What the reference decoder makes of the bytes that follow the chunks already read. -/
inductive Step where
  | pending
  | error
  | chunk (msg rest : Bytes)

/-- Chunk `i` under subkey `sk`, read off the front of `R`. -/
def decodeStep (L : CryptoLib) (c : Cipher) (sk : Bytes) (i : Nat) (R : Bytes) : Step :=
  if R.length ≤ 2 + 2 * c.tagLen then .pending else
  match L.authDecrypt c.method sk (leBytes c.nonceLen (2 * i)) (R.take (2 + c.tagLen)) with
  | none => .error
  | some lenBlock =>
    if ntohs lenBlock = 0 ∨ 0x3FFF < ntohs lenBlock then .error
    else if R.length < 2 + 2 * c.tagLen + ntohs lenBlock then .pending
    else match L.authDecrypt c.method sk (leBytes c.nonceLen (2 * i + 1))
        ((R.drop (2 + c.tagLen)).take (ntohs lenBlock + c.tagLen)) with
      | none => .error
      | some msg => .chunk msg (R.drop (2 + 2 * c.tagLen + ntohs lenBlock))

/-- The decoder's verdict on a byte string: an error, or the messages read and the bytes
left pending. -/
inductive Decoded where
  | error
  | pending (msgs : List Bytes) (rest : Bytes)
  deriving DecidableEq

/-- The messages `ms` read before a verdict. -/
def Decoded.prepend (ms : List Bytes) : Decoded → Decoded
  | .error => .error
  | .pending ms' rest => .pending (ms ++ ms') rest

@[simp] theorem Decoded.prepend_pending (ms ms' : List Bytes) (rest : Bytes) :
    (Decoded.pending ms' rest).prepend ms = .pending (ms ++ ms') rest := rfl

@[simp] theorem Decoded.prepend_nil (d : Decoded) : d.prepend [] = d := by
  cases d <;> rfl

@[simp] theorem Decoded.prepend_prepend (ms ms' : List Bytes) (d : Decoded) :
    (d.prepend ms').prepend ms = d.prepend (ms ++ ms') := by
  cases d <;> simp [prepend]

section Chunk

variable {L : CryptoLib} {c : Cipher} {sk : Bytes} {i : Nat} {R msg rest : Bytes}

/-- What a popped chunk is: a length block that opens under `LE(2i)` to the message's length
as `htons` writes it, between `1` and `0x3FFF`, a payload of that length that opens under
`LE(2i+1)` to the message, and the bytes after them. -/
theorem decodeStep_chunk_inv (h : decodeStep L c sk i R = .chunk msg rest) :
    L.authDecrypt c.method sk (leBytes c.nonceLen (2 * i)) (R.take (2 + c.tagLen)) =
        some (htons msg.length) ∧
      L.authDecrypt c.method sk (leBytes c.nonceLen (2 * i + 1))
        ((R.drop (2 + c.tagLen)).take (msg.length + c.tagLen)) = some msg ∧
      rest = R.drop (2 + 2 * c.tagLen + msg.length) ∧
      2 + 2 * c.tagLen + msg.length ≤ R.length ∧ 0 < msg.length ∧ msg.length ≤ chunkSizeMask := by
  unfold decodeStep at h
  split at h
  · cases h
  split at h
  · cases h
  rename_i lenBlock hlen
  split_ifs at h with hbad hshort
  split at h
  · cases h
  rename_i msg' hmsg
  obtain ⟨rfl, rfl⟩ := Step.chunk.inj h
  have h2 := authDecrypt_length_tagLen hlen
  have hm := authDecrypt_length_tagLen hmsg
  simp only [List.length_take, List.length_drop] at h2 hm
  have hm' : msg'.length = ntohs lenBlock := by omega
  rw [hm', htons_ntohs (by show _ = 2; omega), chunkSizeMask]
  exact ⟨hlen, hmsg, rfl, by omega, by omega, by omega⟩

/-- A chunk is `2 + 2 * tag_len + len` bytes and its message `len ≥ 1` bytes. -/
theorem decodeStep_chunk (h : decodeStep L c sk i R = .chunk msg rest) :
    rest = R.drop (2 + 2 * c.tagLen + msg.length) ∧
      2 + 2 * c.tagLen + msg.length ≤ R.length ∧ 0 < msg.length :=
  let ⟨_, _, hrest, hle, hpos, _⟩ := decodeStep_chunk_inv h
  ⟨hrest, hle, hpos⟩

end Chunk

/-- What the decoder leaves pending is shorter than the longest chunk. -/
theorem decodeStep_pending_length {L : CryptoLib} {c : Cipher} {sk : Bytes} {i : Nat}
    {R : Bytes} (h : decodeStep L c sk i R = .pending) :
    R.length < 2 + 2 * c.tagLen + chunkSizeMask := by
  unfold decodeStep at h
  split at h
  · unfold chunkSizeMask; omega
  split at h
  · cases h
  split_ifs at h with hbad hshort
  · unfold chunkSizeMask at hbad ⊢; omega
  · split at h <;> cases h

/-- A verdict of error needs more than a length block's worth of bytes. -/
theorem decodeStep_error_length {L : CryptoLib} {c : Cipher} {sk : Bytes} {i : Nat} {R : Bytes}
    (h : decodeStep L c sk i R = .error) : 2 + 2 * c.tagLen < R.length := by
  by_contra hle
  rw [decodeStep, if_pos (Nat.not_lt.mp hle)] at h
  cases h

/-- Chunks `i, i + 1, …` read off `R` until the decoder is pending or fails. -/
def decodeChunks (L : CryptoLib) (c : Cipher) (sk : Bytes) (i : Nat) (R : Bytes) : Decoded :=
  match h : decodeStep L c sk i R with
  | .pending => .pending [] R
  | .error => .error
  | .chunk msg rest => (decodeChunks L c sk (i + 1) rest).prepend [msg]
termination_by R.length
decreasing_by
  simp_wf
  obtain ⟨rfl, hle, -⟩ := decodeStep_chunk h
  rw [List.length_drop]
  omega

/-- `decode(S)`: pending with nothing read while the salt is incomplete; otherwise the
chunks after the salt, under the subkey of the salt. -/
def referenceDecode (L : CryptoLib) (c : Cipher) (S : Bytes) : Decoded :=
  if S.length ≤ c.keyLen then .pending [] S
  else decodeChunks L c (deriveSubkey L c (S.take c.keyLen)) 0 (S.drop c.keyLen)

theorem referenceDecode_short (L : CryptoLib) (c : Cipher) {S : Bytes} (h : S.length ≤ c.keyLen) :
    referenceDecode L c S = .pending [] S :=
  if_pos h

/-! ## Decoding in pieces -/

section Resume

variable {L : CryptoLib} {c : Cipher} {sk : Bytes}

theorem decodeChunks_of_pending {i : Nat} {R : Bytes} (h : decodeStep L c sk i R = .pending) :
    decodeChunks L c sk i R = .pending [] R := by
  rw [decodeChunks]; split <;> simp_all

theorem decodeChunks_of_error {i : Nat} {R : Bytes} (h : decodeStep L c sk i R = .error) :
    decodeChunks L c sk i R = .error := by
  rw [decodeChunks]; split <;> simp_all

theorem decodeChunks_of_chunk {i : Nat} {R msg rest : Bytes}
    (h : decodeStep L c sk i R = .chunk msg rest) :
    decodeChunks L c sk i R = (decodeChunks L c sk (i + 1) rest).prepend [msg] := by
  rw [decodeChunks]; split <;> simp_all

/-- Past a chunk, the decoder is pending after `R` when it is pending, one message fewer, after
the bytes that follow the chunk. -/
theorem decodeChunks_chunk_pending {i : Nat} {R msg rest' : Bytes}
    (h : decodeStep L c sk i R = .chunk msg rest') {ms : List Bytes} {rest : Bytes}
    (hd : decodeChunks L c sk i R = .pending ms rest) :
    ∃ ms', ms = msg :: ms' ∧ decodeChunks L c sk (i + 1) rest' = .pending ms' rest := by
  rw [decodeChunks_of_chunk h] at hd
  cases hd' : decodeChunks L c sk (i + 1) rest' with
  | error => rw [hd'] at hd; cases hd
  | pending ms' rest'' =>
    rw [hd', Decoded.prepend_pending] at hd
    obtain ⟨rfl, rfl⟩ := Decoded.pending.inj hd
    exact ⟨ms', rfl, rfl⟩

/-- Past a chunk, the decoder fails on `R` when it fails on the bytes that follow the chunk. -/
theorem decodeChunks_chunk_error {i : Nat} {R msg rest' : Bytes}
    (h : decodeStep L c sk i R = .chunk msg rest') (hd : decodeChunks L c sk i R = .error) :
    decodeChunks L c sk (i + 1) rest' = .error := by
  rw [decodeChunks_of_chunk h] at hd
  cases hd' : decodeChunks L c sk (i + 1) rest' with
  | error => rfl
  | pending => rw [hd'] at hd; cases hd

@[simp] theorem decodeChunks_nil (i : Nat) : decodeChunks L c sk i [] = .pending [] [] :=
  decodeChunks_of_pending (by rw [decodeStep]; exact if_pos (Nat.zero_le _))

/-- A verdict that `R` already decides does not depend on what follows `R`. -/
theorem decodeStep_append {i : Nat} {R : Bytes} (X : Bytes) :
    (decodeStep L c sk i R = .error → decodeStep L c sk i (R ++ X) = .error) ∧
    ∀ {msg rest}, decodeStep L c sk i R = .chunk msg rest →
      decodeStep L c sk i (R ++ X) = .chunk msg (rest ++ X) := by
  unfold decodeStep
  by_cases hshort : R.length ≤ 2 + 2 * c.tagLen
  · simp [hshort]
  have hlong : ¬(R ++ X).length ≤ 2 + 2 * c.tagLen := by simp only [List.length_append]; omega
  rw [if_neg hshort, if_neg hlong, List.take_append_of_le_length (by omega)]
  split
  · simp
  rename_i lenBlock _
  by_cases hbad : ntohs lenBlock = 0 ∨ 0x3FFF < ntohs lenBlock
  · simp [hbad]
  by_cases hpart : R.length < 2 + 2 * c.tagLen + ntohs lenBlock
  · simp [hbad, hpart]
  have hpart' : ¬(R ++ X).length < 2 + 2 * c.tagLen + ntohs lenBlock := by
    simp only [List.length_append]; omega
  rw [if_neg hbad, if_neg hbad, if_neg hpart, if_neg hpart', List.drop_append_of_le_length (by omega),
    List.take_append_of_le_length (by simp only [List.length_drop]; omega),
    List.drop_append_of_le_length (by omega)]
  split <;> simp

/-- Decoding resumes: `R ++ X` decodes as `R` does, then as what `R` left pending followed by
`X`, from the next chunk number. -/
theorem decodeChunks_append (i : Nat) (R X : Bytes) :
    decodeChunks L c sk i (R ++ X) =
      match decodeChunks L c sk i R with
      | .error => .error
      | .pending ms rest => (decodeChunks L c sk (i + ms.length) (rest ++ X)).prepend ms := by
  induction i, R using decodeChunks.induct L c sk with
  | case1 i R h => simp [decodeChunks_of_pending h]
  | case2 i R h => simp [decodeChunks_of_error h, decodeChunks_of_error ((decodeStep_append X).1 h)]
  | case3 i R msg rest h ih =>
    rw [decodeChunks_of_chunk h, decodeChunks_of_chunk ((decodeStep_append X).2 h), ih]
    cases decodeChunks L c sk (i + 1) rest with
    | error => rfl
    | pending ms rest' =>
      simp only [Decoded.prepend_pending, Decoded.prepend_prepend, List.singleton_append,
        List.length_cons, Nat.add_right_comm, Nat.add_assoc]

/-- Whatever the decoder has read, what it leaves pending is shorter than the longest chunk. -/
theorem decodeChunks_pending_length (i : Nat) (R : Bytes) :
    ∀ {ms : List Bytes} {rest : Bytes}, decodeChunks L c sk i R = .pending ms rest →
      rest.length < 2 + 2 * c.tagLen + chunkSizeMask := by
  induction i, R using decodeChunks.induct L c sk with
  | case1 i R h =>
    intro ms rest hd
    rw [decodeChunks_of_pending h] at hd
    obtain ⟨-, rfl⟩ := Decoded.pending.inj hd
    exact decodeStep_pending_length h
  | case2 i R h =>
    intro ms rest hd
    rw [decodeChunks_of_error h] at hd
    cases hd
  | case3 i R msg rest' h ih =>
    intro ms rest hd
    obtain ⟨ms', -, hd'⟩ := decodeChunks_chunk_pending h hd
    exact ih hd'

end Resume

/-- The reference decoder resumes the same way on the whole stream, salt included. -/
theorem referenceDecode_append (L : CryptoLib) (c : Cipher) {F : Bytes} (X : Bytes)
    (hF : c.keyLen < F.length) :
    referenceDecode L c (F ++ X) =
      match referenceDecode L c F with
      | .error => .error
      | .pending ms rest =>
        (decodeChunks L c (deriveSubkey L c (F.take c.keyLen)) ms.length (rest ++ X)).prepend ms := by
  have hFX : ¬(F ++ X).length ≤ c.keyLen := by simp only [List.length_append]; omega
  rw [referenceDecode, referenceDecode, if_neg hFX, if_neg (Nat.not_le.mpr hF),
    List.take_append_of_le_length hF.le, List.drop_append_of_le_length hF.le, decodeChunks_append]
  simp only [Nat.zero_add]

/-- An error is final: no bytes that follow undo it. -/
theorem referenceDecode_error_append (L : CryptoLib) (c : Cipher) {F : Bytes} (X : Bytes)
    (h : referenceDecode L c F = .error) : referenceDecode L c (F ++ X) = .error := by
  by_cases hF : c.keyLen < F.length
  · rw [referenceDecode_append L c X hF, h]
  · rw [referenceDecode, if_pos (Nat.not_lt.mp hF)] at h
    cases h

/-- While the salt is incomplete everything is pending; afterwards less than the longest
chunk is. -/
theorem referenceDecode_pending_length (L : CryptoLib) (c : Cipher) {S : Bytes} {ms : List Bytes}
    {rest : Bytes} (h : referenceDecode L c S = .pending ms rest) :
    S.length ≤ c.keyLen ∧ rest = S ∨
      c.keyLen < S.length ∧ rest.length < 2 + 2 * c.tagLen + chunkSizeMask := by
  by_cases hS : S.length ≤ c.keyLen
  · rw [referenceDecode_short L c hS] at h
    exact .inl ⟨hS, (Decoded.pending.inj h).2.symm⟩
  · rw [referenceDecode, if_neg hS] at h
    exact .inr ⟨Nat.lt_of_not_le hS, decodeChunks_pending_length 0 _ h⟩

/-- The decoder reads the salt only through the subkey, so only its first sixteen bytes: the
bytes of a `key_len`-byte salt past them can be replaced. -/
theorem referenceDecode_salt_tail (L : CryptoLib) (c : Cipher) {S salt : Bytes}
    (hlong : c.keyLen < S.length) (hsalt : salt.length = c.keyLen)
    (hhead : salt.take 16 = S.take 16) :
    referenceDecode L c (salt ++ S.drop c.keyLen) = referenceDecode L c S := by
  have h16 : 16 ≤ c.keyLen := by
    have := congrArg List.length hhead
    simp only [List.length_take] at this
    omega
  have hlen : ¬(salt ++ S.drop c.keyLen).length ≤ c.keyLen := by
    simp only [List.length_append, List.length_drop]
    omega
  rw [referenceDecode, referenceDecode, if_neg hlen, if_neg (Nat.not_le.mpr hlong),
    List.take_left' hsalt, List.drop_left' hsalt, ← deriveSubkey_take L c salt, hhead,
    ← deriveSubkey_take L c (S.take c.keyLen), List.take_take, min_eq_left h16]

end ShadowAead

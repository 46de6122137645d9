import ShadowAead.Context
/-
# `ShadowAead.Udp` — the one-shot datagram codec

`aead_encrypt_all` seals a datagram as `salt ++ AEAD(master key, nonce, P)` and
`aead_decrypt_all` opens it.  Both build a throw-away context, so the nonce is that
context's zeroed nonce, `LE(0)`, and `aead_cipher_ctx_udp_set_key` installs the master
key: the salt is sent but enters neither key nor nonce (`aeadEncryptAll_eq`).

`aead_decrypt_all` refuses a datagram of at most `key_len + tag_len` bytes before it
looks at it, so the sealing of the empty plaintext, which is exactly that long, does not
come back (`udp_round_trip`).  On every refusal the replay filter is left as it was.
-/

namespace ShadowAead

/-- `aead_encrypt_all(plaintext, cipher, capacity)`, with `rand` the salt the fresh context
draws; `none` if `assert(ciphertext->len == clen)` fails. -/
def aeadEncryptAll (L : CryptoLib) (cipher : Cipher) (plaintext rand : Bytes) :
    Option (Bytes × SealCall) :=
  let ctx := aeadCipherCtxUdpSetKey (aeadCtxInit cipher true rand)
  let (c, call) := aeadCipherEncrypt L ctx plaintext ctx.nonce cipher.key
  if c.length = cipher.tagLen + plaintext.length then some (ctx.salt ++ c, call) else none

/-- `aead_decrypt_all(ciphertext, cipher, capacity)` against the replay filter `g`, consulted
when the build has `MODULE_REMOTE`.  The plaintext copied out is the primitive's output,
which by its contract has the `plaintext->len` bytes the code copies. -/
def aeadDecryptAll (L : CryptoLib) (moduleRemote : Bool) (g : Sbf) (cipher : Cipher)
    (ciphertext : Bytes) : Option (Reply × Sbf) :=
  if ciphertext.length ≤ cipher.keyLen + cipher.tagLen then some (.error, g) else do
  let bodyLen ← sizeSub ciphertext.length cipher.keyLen
  let _ ← sizeSub bodyLen cipher.tagLen
  let salt ← bufSlice ciphertext 0 cipher.keyLen
  if moduleRemote && fsSbfCheck g salt then return (.error, g)
  let ctx := aeadCipherCtxUdpSetKey { aeadCtxInit cipher false [] with salt }
  let body ← bufSlice ciphertext cipher.keyLen bodyLen
  match ← aeadCipherDecrypt L ctx body ctx.nonce cipher.key with
  | none => return (.error, g)
  | some p => return (.ok p, if moduleRemote then fsSbfAdd g salt else g)

/-- Whichever library a method uses, a datagram is sealed and opened under the master key. -/
@[simp] theorem aeadCipherKey_udpSetKey {ctx : CipherCtx} {k : Bytes} (h : ctx.cipher.key = k) :
    aeadCipherKey (aeadCipherCtxUdpSetKey ctx) k = k := by
  unfold aeadCipherKey aeadCipherCtxUdpSetKey
  split <;> simp_all

@[simp] theorem aeadCipherCtxUdpSetKey_cipher (ctx : CipherCtx) :
    (aeadCipherCtxUdpSetKey ctx).cipher = ctx.cipher := by
  unfold aeadCipherCtxUdpSetKey; split <;> rfl

@[simp] theorem aeadCipherCtxUdpSetKey_nonce (ctx : CipherCtx) :
    (aeadCipherCtxUdpSetKey ctx).nonce = ctx.nonce := by
  unfold aeadCipherCtxUdpSetKey; split <;> rfl

@[simp] theorem aeadCipherCtxUdpSetKey_salt (ctx : CipherCtx) :
    (aeadCipherCtxUdpSetKey ctx).salt = ctx.salt := by
  unfold aeadCipherCtxUdpSetKey; split <;> rfl

/-! ## What the two functions compute -/

theorem aeadEncryptAll_eq (L : CryptoLib) (c : Cipher) (p rand : Bytes) :
    aeadEncryptAll L c p rand =
      some (rand ++ L.authEncrypt c.method c.key (leBytes c.nonceLen 0) p,
        ⟨c.key, leBytes c.nonceLen 0⟩) := by
  simp [aeadEncryptAll, aeadCipherEncrypt, L.authEncrypt_length, Cipher.tagLen, Nat.add_comm]

/-- A datagram that is long enough is refused for a replayed salt, refused when it does not
authenticate, and otherwise opened, its salt then entering the filter. -/
theorem aeadDecryptAll_eq (L : CryptoLib) (moduleRemote : Bool) (g : Sbf) (c : Cipher)
    {d : Bytes} (hlen : c.keyLen + c.tagLen < d.length) :
    aeadDecryptAll L moduleRemote g c d =
      some (if moduleRemote ∧ d.take c.keyLen ∈ g then (.error, g) else
        match L.authDecrypt c.method c.key (leBytes c.nonceLen 0) (d.drop c.keyLen) with
        | none => (.error, g)
        | some p => (.ok p, if moduleRemote then d.take c.keyLen :: g else g)) := by
  have hsalt : bufSlice d 0 c.keyLen = some (d.take c.keyLen) := by
    rw [bufSlice_of_le (by omega), List.drop_zero]
  have hbody : bufSlice d c.keyLen (d.length - c.keyLen) = some (d.drop c.keyLen) := by
    rw [bufSlice_of_le (by omega), List.take_of_length_le (by simp)]
  have hopen : ∀ ctx : CipherCtx, ctx.cipher = c →
      aeadCipherDecrypt L (aeadCipherCtxUdpSetKey ctx) (d.drop c.keyLen) (leBytes c.nonceLen 0)
        c.key = some (L.authDecrypt c.method c.key (leBytes c.nonceLen 0) (d.drop c.keyLen)) := by
    intro ctx hc
    rw [aeadCipherDecrypt_of_le _ _ _ _ (by simp [hc]; omega), aeadCipherKey_udpSetKey (by rw [hc]),
      aeadCipherCtxUdpSetKey_cipher, hc]
  simp only [aeadDecryptAll, if_neg (Nat.not_le.mpr hlen), sizeSub_of_le (by omega : c.keyLen ≤ d.length),
    sizeSub_of_le (by omega : c.tagLen ≤ d.length - c.keyLen), hsalt, hbody, Option.bind_eq_bind,
    Option.some_bind, fsSbfCheck, fsSbfAdd, Bool.and_eq_true, decide_eq_true_eq,
    aeadCipherCtxUdpSetKey_nonce, aeadCtxInit_nonce, aeadCtxInit_cipher, hopen, Option.pure_def]
  split <;> simp_all
  split <;> simp_all

theorem aeadDecryptAll_short (L : CryptoLib) (moduleRemote : Bool) (g : Sbf) (c : Cipher)
    {d : Bytes} (hlen : d.length ≤ c.keyLen + c.tagLen) :
    aeadDecryptAll L moduleRemote g c d = some (.error, g) := by
  simp [aeadDecryptAll, hlen]

/-- `aead_decrypt_all` is defined on every datagram: its differences and slices stay in
range once the length guard has passed. -/
theorem aeadDecryptAll_isSome (L : CryptoLib) (moduleRemote : Bool) (g : Sbf) (c : Cipher)
    (d : Bytes) : (aeadDecryptAll L moduleRemote g c d).isSome := by
  by_cases hlen : c.keyLen + c.tagLen < d.length
  · simp [aeadDecryptAll_eq L moduleRemote g c hlen]
  · simp [aeadDecryptAll_short L moduleRemote g c (Nat.not_lt.mp hlen)]

/-- What one datagram does to the replay filter of a server: a refusal leaves it as it was,
and an acceptance adds the datagram's salt, which it did not hold. -/
theorem aeadDecryptAll_sbf (L : CryptoLib) (g : Sbf) (c : Cipher) (d : Bytes) {r : Reply}
    {g' : Sbf} (h : aeadDecryptAll L true g c d = some (r, g')) :
    (g' = g ∧ ∀ p, r ≠ .ok p) ∨
      (∃ p, r = .ok p ∧ d.take c.keyLen ∉ g ∧ g' = d.take c.keyLen :: g) := by
  by_cases hlen : c.keyLen + c.tagLen < d.length
  · rw [aeadDecryptAll_eq L true g c hlen] at h
    by_cases hg : d.take c.keyLen ∈ g
    · simp only [hg, and_self, if_true, Option.some.injEq, Prod.mk.injEq] at h
      obtain ⟨rfl, rfl⟩ := h
      exact .inl ⟨rfl, by simp⟩
    · simp only [hg, and_false, if_false, if_true] at h
      split at h <;> simp only [Option.some.injEq, Prod.mk.injEq] at h <;> obtain ⟨rfl, rfl⟩ := h
      · exact .inl ⟨rfl, by simp⟩
      · exact .inr ⟨_, rfl, hg, rfl⟩
  · rw [aeadDecryptAll_short L true g c (Nat.not_lt.mp hlen)] at h
    simp only [Option.some.injEq, Prod.mk.injEq] at h
    obtain ⟨rfl, rfl⟩ := h
    exact .inl ⟨rfl, by simp⟩

/-- What an accepted datagram is: longer than `key_len + tag_len`, with a salt a server's
filter did not hold, and a body that opens under the master key and `LE(0)`. -/
theorem aeadDecryptAll_ok_inv {L : CryptoLib} {moduleRemote : Bool} {g : Sbf} {c : Cipher}
    {d p : Bytes} {g' : Sbf} (h : aeadDecryptAll L moduleRemote g c d = some (.ok p, g')) :
    c.keyLen + c.tagLen < d.length ∧ ¬(moduleRemote = true ∧ d.take c.keyLen ∈ g) ∧
      L.authDecrypt c.method c.key (leBytes c.nonceLen 0) (d.drop c.keyLen) = some p ∧
      g' = if moduleRemote then d.take c.keyLen :: g else g := by
  by_cases hlen : c.keyLen + c.tagLen < d.length
  · rw [aeadDecryptAll_eq L moduleRemote g c hlen] at h
    split at h
    · cases h
    split at h
    · cases h
    rename_i hg _ _ hopen
    obtain ⟨hp, rfl⟩ := Prod.mk.inj (Option.some.inj h)
    cases hp
    exact ⟨hlen, hg, hopen, rfl⟩
  · rw [aeadDecryptAll_short L moduleRemote g c (Nat.not_lt.mp hlen)] at h
    cases h

/-! ## Two datagrams, and a datagram there and back -/

/-- Every datagram is sealed under the master key and the nonce `LE(0)`, whatever the salt
its context drew and whatever it carries. -/
theorem aeadEncryptAll_sealCall (L : CryptoLib) (c : Cipher) (p rand : Bytes) :
    (aeadEncryptAll L c p rand).map Prod.snd = some ⟨c.key, leBytes c.nonceLen 0⟩ := by
  simp [aeadEncryptAll_eq]

/-- A datagram comes back whole, except the empty one, whose sealing is exactly
`key_len + tag_len` bytes and falls under the length guard. -/
theorem udp_round_trip (L : CryptoLib) (hinv : L.Inverts) (c : Cipher) (p rand : Bytes)
    (hrand : rand.length = c.keyLen) (moduleRemote : Bool) (g : Sbf)
    (hg : moduleRemote = true → rand ∉ g) :
    ∃ out call, aeadEncryptAll L c p rand = some (out, call) ∧
      out = rand ++ L.authEncrypt c.method c.key (leBytes c.nonceLen 0) p ∧
      out.length = c.keyLen + p.length + c.tagLen ∧
      (aeadDecryptAll L moduleRemote g c out).map Prod.fst =
        some (if p = [] then .error else .ok p) := by
  have hlen : (rand ++ L.authEncrypt c.method c.key (leBytes c.nonceLen 0) p).length =
      c.keyLen + p.length + c.tagLen := by
    simp [L.authEncrypt_length, hrand, Cipher.tagLen, Nat.add_assoc]
  refine ⟨_, _, aeadEncryptAll_eq L c p rand, rfl, hlen, ?_⟩
  by_cases hp : p = []
  · subst hp
    rw [aeadDecryptAll_short L moduleRemote g c (by rw [hlen]; simp)]
    rfl
  · have hlong : c.keyLen + c.tagLen < (rand ++ L.authEncrypt c.method c.key
        (leBytes c.nonceLen 0) p).length := by
      have := List.length_pos.mpr hp
      omega
    rw [aeadDecryptAll_eq L moduleRemote g c hlong, List.take_left' hrand,
      List.drop_left' hrand, hinv]
    by_cases hm : moduleRemote = true <;> simp_all

/-- The spec's datagram `"ping"` under `xchacha20-ietf-poly1305`, with the master key
`aead_key_init` derives from the password `pw` and a 32-byte salt, over the transparent
library. -/
theorem udp_round_trip_ping :
    CryptoLib.plain.Inverts ∧
      (List.replicate 32 1 : Bytes).length =
        (aeadKeyInit CryptoLib.plain .xchacha20poly1305ietf [112, 119]).keyLen ∧
      ∃ out call, aeadEncryptAll CryptoLib.plain
          (aeadKeyInit CryptoLib.plain .xchacha20poly1305ietf [112, 119]) [112, 105, 110, 103]
          (List.replicate 32 1) = some (out, call) ∧
        out = List.replicate 32 1 ++ CryptoLib.plain.authEncrypt .xchacha20poly1305ietf
          (List.replicate 32 0) (leBytes 24 0) [112, 105, 110, 103] ∧
        out.length = 32 + 4 + 16 ∧
        (aeadDecryptAll CryptoLib.plain false []
          (aeadKeyInit CryptoLib.plain .xchacha20poly1305ietf [112, 119]) out).map Prod.fst =
          some (.ok [112, 105, 110, 103]) :=
  ⟨CryptoLib.plain_inverts, rfl,
    udp_round_trip CryptoLib.plain CryptoLib.plain_inverts
      (aeadKeyInit CryptoLib.plain .xchacha20poly1305ietf [112, 119]) [112, 105, 110, 103]
      (List.replicate 32 1) rfl false [] (by simp)⟩

/-- The empty datagram under `aes-128-gcm`, keyed from the password `pw`, does not come back:
its sealing is the 16-byte salt and the 16-byte tag, and the length guard refuses 32 bytes. -/
theorem udp_empty_datagram_refused :
    (aeadEncryptAll CryptoLib.plain (aeadKeyInit CryptoLib.plain .aes128gcm [112, 119]) []
        (List.replicate 16 0)).bind (fun out => aeadDecryptAll CryptoLib.plain false []
          (aeadKeyInit CryptoLib.plain .aes128gcm [112, 119]) out.1) =
      some (.error, []) := by
  rw [aeadEncryptAll_eq, Option.some_bind, aeadDecryptAll_short _ _ _ _ (by simp [CryptoLib.plain,
    aeadKeyInit, Cipher.keyLen, Cipher.tagLen, supportedAeadCiphersKeySize,
    supportedAeadCiphersTagSize])]

/-- What a server answers a datagram that `aead_encrypt_all` sealed under the salt `rand`: its
plaintext, `rand` then entering the filter, unless the filter already holds `rand`; then
`CRYPTO_ERROR`, the filter left as it was. -/
theorem aeadDecryptAll_sealed (L : CryptoLib) (hinv : L.Inverts) (c : Cipher) {p rand : Bytes}
    (hp : p ≠ []) (hrand : rand.length = c.keyLen) (g : Sbf) :
    aeadDecryptAll L true g c (rand ++ L.authEncrypt c.method c.key (leBytes c.nonceLen 0) p) =
      some (if rand ∈ g then (.error, g) else (.ok p, rand :: g)) := by
  have hlong : c.keyLen + c.tagLen <
      (rand ++ L.authEncrypt c.method c.key (leBytes c.nonceLen 0) p).length := by
    have := List.length_pos.mpr hp
    simp only [List.length_append, L.authEncrypt_length, hrand, Cipher.tagLen]
    omega
  rw [aeadDecryptAll_eq L true g c hlong, List.take_left' hrand, List.drop_left' hrand, hinv]
  by_cases hg : rand ∈ g <;> simp [hg]

/-! ## What the seal covers -/

/-- Over a library that admits no forgery, a datagram `aead_decrypt_all` accepts is what
`aead_encrypt_all` sends for the plaintext it returns, under the salt the datagram starts with;
that plaintext is never empty. -/
theorem udp_accepts_only_sealed (L : CryptoLib) (hauth : L.Authentic) (moduleRemote : Bool)
    (g : Sbf) (c : Cipher) (d : Bytes) {p : Bytes} {g' : Sbf}
    (h : aeadDecryptAll L moduleRemote g c d = some (.ok p, g')) :
    p ≠ [] ∧ aeadEncryptAll L c p (d.take c.keyLen) = some (d, ⟨c.key, leBytes c.nonceLen 0⟩) := by
  obtain ⟨hlen, -, hopen, -⟩ := aeadDecryptAll_ok_inv h
  have hbody := hauth _ _ _ _ _ hopen
  have hsize := congrArg List.length hbody
  rw [List.length_drop, L.authEncrypt_length] at hsize
  refine ⟨List.ne_nil_of_length_pos (by rw [Cipher.tagLen] at hlen; omega), ?_⟩
  rw [aeadEncryptAll_eq, ← hbody, List.take_append_drop]

/-- A datagram of one byte `7` under `aes-128-gcm`, keyed from the password `pw`, over the
library that checks its zero tag. -/
theorem udp_accepts_only_sealed_seven :
    CryptoLib.checked.Authentic ∧
      aeadDecryptAll CryptoLib.checked false [] (aeadKeyInit CryptoLib.checked .aes128gcm [112, 119])
          (List.replicate 16 0 ++ 7 :: List.replicate 16 0) = some (.ok [7], []) ∧
      ([7] : Bytes) ≠ [] ∧
      aeadEncryptAll CryptoLib.checked (aeadKeyInit CryptoLib.checked .aes128gcm [112, 119]) [7]
          ((List.replicate 16 0 ++ 7 :: List.replicate 16 0 : Bytes).take 16) =
        some (List.replicate 16 0 ++ 7 :: List.replicate 16 0,
          ⟨List.replicate 16 0, leBytes 12 0⟩) :=
  have h : aeadDecryptAll CryptoLib.checked false []
      (aeadKeyInit CryptoLib.checked .aes128gcm [112, 119])
      (List.replicate 16 0 ++ 7 :: List.replicate 16 0) = some (.ok [7], []) := rfl
  ⟨CryptoLib.checked_authentic, h,
    udp_accepts_only_sealed _ CryptoLib.checked_authentic false [] _ _ h⟩

/-- The replay filter keys a datagram on its salt, which neither the key nor the nonce covers.
A datagram a server accepted is accepted again, to the same plaintext, once its salt is
replaced by any `key_len` bytes the filter does not hold: the filter stops a byte-for-byte
replay only. -/
theorem udp_replay_fresh_salt (L : CryptoLib) (c : Cipher) (g : Sbf) (d : Bytes) {p : Bytes}
    {g' : Sbf} (h : aeadDecryptAll L true g c d = some (.ok p, g')) (salt : Bytes)
    (hsalt : salt.length = c.keyLen) (hfresh : salt ∉ g') :
    aeadDecryptAll L true g' c (salt ++ d.drop c.keyLen) = some (.ok p, salt :: g') := by
  obtain ⟨hlen, -, hopen, -⟩ := aeadDecryptAll_ok_inv h
  have hlen' : c.keyLen + c.tagLen < (salt ++ d.drop c.keyLen).length := by
    rw [List.length_append, List.length_drop]
    omega
  rw [aeadDecryptAll_eq L true g' c hlen', List.take_left' hsalt, List.drop_left' hsalt, hopen,
    if_neg (fun h => hfresh h.2)]
  rfl

/-- An `aes-128-gcm` datagram of one byte `7` under the zero salt, keyed from the password
`pw`, accepted by a server with an empty filter, accepted again under the salt of sixteen
bytes `1`. -/
theorem udp_replay_fresh_salt_ones :
    aeadDecryptAll CryptoLib.plain true [] (aeadKeyInit CryptoLib.plain .aes128gcm [112, 119])
        (List.replicate 16 0 ++ 7 :: List.replicate 16 0) =
        some (.ok [7], [List.replicate 16 0]) ∧
      (List.replicate 16 1 : Bytes).length =
        (aeadKeyInit CryptoLib.plain .aes128gcm [112, 119]).keyLen ∧
      List.replicate 16 1 ∉ [(List.replicate 16 0 : Bytes)] ∧
      aeadDecryptAll CryptoLib.plain true [List.replicate 16 0]
          (aeadKeyInit CryptoLib.plain .aes128gcm [112, 119])
          ((List.replicate 16 1 : Bytes) ++
            (List.replicate 16 0 ++ 7 :: List.replicate 16 0 : Bytes).drop 16) =
        some (.ok [7], List.replicate 16 1 :: [List.replicate 16 0]) :=
  have h : aeadDecryptAll CryptoLib.plain true []
      (aeadKeyInit CryptoLib.plain .aes128gcm [112, 119])
      (List.replicate 16 0 ++ 7 :: List.replicate 16 0) =
      some (.ok [7], [List.replicate 16 0]) := rfl
  have hfresh : List.replicate 16 1 ∉ [(List.replicate 16 0 : Bytes)] := by decide
  ⟨h, rfl, hfresh, udp_replay_fresh_salt _ _ _ _ h (List.replicate 16 1) rfl hfresh⟩

end ShadowAead

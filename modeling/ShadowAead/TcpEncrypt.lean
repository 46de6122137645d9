import ShadowAead.Udp
import Mathlib.Data.List.Nodup
/-
# `ShadowAead.TcpEncrypt` — the sending half of the stream codec

`aead_encrypt` turns each non-empty plaintext into one chunk: its length sealed under
the current nonce, then its bytes sealed under the next.  The first non-empty call also
derives the subkey from the salt, restarts the nonce at `LE(0)` and prefixes the salt.

The call hands `plaintext->len`, a `size_t`, to the `uint16_t` parameter of
`aead_chunk_encrypt`, so the chunk code sees the length modulo `2^16`; the assertion
`plen <= CHUNK_SIZE_MASK` is made on that reduced value, while `out_len` is computed from
the full length.  `Buffer` keeps both numbers a call leaves behind: the length the
buffer declares and the bytes the call actually wrote.

The run lemmas say what a whole sequence of calls seals, under which keys and nonces,
chunk by chunk (`frame`, `sealSchedule`).  Those two functions are the wire format of
the specification, written independently of the code.
-/

namespace ShadowAead

/-- A `buffer_t` after a call: the length it declares, and the bytes the call wrote from
its start. -/
structure Buffer where
  len : Nat
  data : Bytes

/-- `aead_chunk_encrypt(ctx, p, c, n, plen)`, `plen` being the `uint16_t` it receives: the
two sealed blocks, the nonce after them, and the two primitive calls; `none` when one of
its `assert`s fails. -/
def aeadChunkEncrypt (L : CryptoLib) (ctx : CipherCtx) (p n : Bytes) (plen : Nat) :
    Option (Bytes × Bytes × List SealCall) :=
  if plen ≤ chunkSizeMask then
    let realPlen := min plen chunkSizeMask
    let (lenCt, lenCall) := aeadCipherEncrypt L ctx (htons realPlen) n ctx.subkey
    let n₁ := sodiumIncrement n
    let (payloadCt, payloadCall) := aeadCipherEncrypt L ctx (p.take realPlen) n₁ ctx.subkey
    if lenCt.length = chunkSizeLen + ctx.cipher.tagLen ∧
        payloadCt.length = realPlen + ctx.cipher.tagLen then
      some (lenCt ++ payloadCt, sodiumIncrement n₁, [lenCall, payloadCall])
    else none
  else none

/-- `aead_encrypt(plaintext, cipher_ctx, capacity)`: the buffer it leaves, the context after
it, and the primitive calls it made. -/
def aeadEncrypt (L : CryptoLib) (ctx : CipherCtx) (plaintext : Bytes) :
    Option (Buffer × CipherCtx × List SealCall) :=
  if plaintext.length = 0 then some (⟨0, []⟩, ctx, []) else
  let saltOfst := if ctx.init then 0 else ctx.cipher.keyLen
  let outLen := saltOfst + 2 * ctx.cipher.tagLen + plaintext.length + chunkSizeLen
  let (pre, ctx) :=
    if ctx.init then ([], ctx) else (ctx.salt, { aeadCipherCtxSetSubkey L ctx with init := true })
  (aeadChunkEncrypt L ctx plaintext ctx.nonce (plaintext.length % 2 ^ 16)).map
    fun (c, n, calls) => (⟨outLen, pre ++ c⟩, { ctx with nonce := n }, calls)

/-- Successive `aead_encrypt` calls on one context. -/
def encryptRun (L : CryptoLib) : CipherCtx → List Bytes →
    Option (List (Buffer × List SealCall) × CipherCtx)
  | ctx, [] => some ([], ctx)
  | ctx, p :: ps => do
    let (out, ctx, calls) ← aeadEncrypt L ctx p
    let (outs, ctx) ← encryptRun L ctx ps
    pure ((out, calls) :: outs, ctx)

/-! ## The wire format -/

/-- The `i`-th chunk of a stream under session key `sk`: the length of `p` sealed under
`LE(2i)`, then `p` sealed under `LE(2i+1)`. -/
def frame (L : CryptoLib) (c : Cipher) (sk : Bytes) (i : Nat) (p : Bytes) : Bytes :=
  L.authEncrypt c.method sk (leBytes c.nonceLen (2 * i)) (htons p.length) ++
    L.authEncrypt c.method sk (leBytes c.nonceLen (2 * i + 1)) p

/-- The primitive calls a sequence of plaintexts is owed from chunk `i` on: two per
non-empty plaintext, under `sk` and the next two counter values, none per empty one. -/
def sealSchedule (w : Nat) (sk : Bytes) : Nat → List Bytes → List (List SealCall)
  | _, [] => []
  | i, p :: ps =>
    if p = [] then [] :: sealSchedule w sk i ps
    else [⟨sk, leBytes w (2 * i)⟩, ⟨sk, leBytes w (2 * i + 1)⟩] :: sealSchedule w sk (i + 1) ps

/-- The number of non-empty plaintexts, that is of chunks. -/
def chunkCount (ps : List Bytes) : Nat := ps.countP fun p => !p.isEmpty

/-- The buffers a sequence of calls returns from chunk `i` on: nothing for an empty
plaintext and its frame for a non-empty one, the first frame preceded by `salt` when the salt
is still to be sent, the buffer then declaring its `key_len` bytes too. -/
def sealedBuffers (L : CryptoLib) (c : Cipher) (sk : Bytes) :
    Option Bytes → Nat → List Bytes → List Buffer
  | _, _, [] => []
  | salt, i, p :: ps =>
    if p = [] then ⟨0, []⟩ :: sealedBuffers L c sk salt i ps
    else ⟨(if salt.isSome then c.keyLen else 0) + 2 * c.tagLen + p.length + chunkSizeLen,
        salt.getD [] ++ frame L c sk i p⟩ :: sealedBuffers L c sk none (i + 1) ps

@[simp] theorem chunkCount_nil : chunkCount [] = 0 := rfl

theorem chunkCount_cons (p : Bytes) (ps : List Bytes) :
    chunkCount (p :: ps) = chunkCount ps + if p = [] then 0 else 1 := by
  cases p <;> simp [chunkCount, List.countP_cons]

theorem length_frame (L : CryptoLib) (c : Cipher) (sk : Bytes) (i : Nat) (p : Bytes) :
    (frame L c sk i p).length = 2 * c.tagLen + p.length + chunkSizeLen := by
  simp only [frame, List.length_append, L.authEncrypt_length, length_htons, Cipher.tagLen]
  omega

/-! ## One call -/

/-- A context that has sent its salt and sealed `i` chunks under `sk`. -/
structure Sealing (c : Cipher) (sk : Bytes) (i : Nat) (ctx : CipherCtx) : Prop where
  cipher : ctx.cipher = c
  init : ctx.init = true
  key : ctx.sessionKey = sk
  nonce : ctx.nonce = leBytes c.nonceLen (2 * i)

/-- A chunk length within the mask, and within the buffer, is sealed as the wire format
says, from any nonce. -/
theorem aeadChunkEncrypt_eq (L : CryptoLib) (ctx : CipherCtx) (p n : Bytes) {plen : Nat}
    (h : plen ≤ chunkSizeMask) (hp : plen ≤ p.length) :
    aeadChunkEncrypt L ctx p n plen =
      some (L.authEncrypt ctx.cipher.method ctx.sessionKey n (htons plen) ++
          L.authEncrypt ctx.cipher.method ctx.sessionKey (sodiumIncrement n) (p.take plen),
        sodiumIncrement (sodiumIncrement n),
        [⟨ctx.sessionKey, n⟩, ⟨ctx.sessionKey, sodiumIncrement n⟩]) := by
  simp [aeadChunkEncrypt, h, hp, aeadCipherEncrypt, CipherCtx.sessionKey, L.authEncrypt_length,
    Cipher.tagLen, Nat.add_comm]

theorem aeadEncrypt_nil (L : CryptoLib) (ctx : CipherCtx) :
    aeadEncrypt L ctx [] = some (⟨0, []⟩, ctx, []) := rfl

/-- A call on a context that has already sent its salt seals the next frame. -/
theorem aeadEncrypt_sealing (L : CryptoLib) {c : Cipher} {sk : Bytes} {i : Nat}
    {ctx : CipherCtx} (hs : Sealing c sk i ctx) {p : Bytes} (hp : p ≠ [])
    (hlen : p.length ≤ chunkSizeMask) :
    ∃ ctx', aeadEncrypt L ctx p =
        some (⟨2 * c.tagLen + p.length + chunkSizeLen, frame L c sk i p⟩, ctx',
          [⟨sk, leBytes c.nonceLen (2 * i)⟩, ⟨sk, leBytes c.nonceLen (2 * i + 1)⟩]) ∧
      Sealing c sk (i + 1) ctx' := by
  have hmod : p.length % 2 ^ 16 = p.length :=
    Nat.mod_eq_of_lt (by unfold chunkSizeMask at hlen; omega)
  refine ⟨{ ctx with nonce := leBytes c.nonceLen (2 * (i + 1)) }, ?_,
    ⟨hs.cipher, hs.init, hs.key, rfl⟩⟩
  simp only [aeadEncrypt, List.length_eq_zero, hp, if_false, hs.init, if_true, hmod,
    aeadChunkEncrypt_eq L ctx p _ hlen le_rfl, List.take_length, Option.map_some', hs.key, hs.nonce, hs.cipher,
    sodiumIncrement_leBytes, frame, List.nil_append, Nat.zero_add, Nat.mul_succ]

/-- The first non-empty call derives the subkey from the salt and sends the salt before the
first frame.  The frame carries the first `plaintext->len mod 2^16` bytes, the length the
`uint16_t` parameter receives. -/
theorem aeadEncrypt_first (L : CryptoLib) {ctx : CipherCtx} (hinit : ctx.init = false)
    {p : Bytes} (hp : p ≠ []) (hlen : p.length % 2 ^ 16 ≤ chunkSizeMask) :
    ∃ ctx', aeadEncrypt L ctx p =
        some (⟨ctx.cipher.keyLen + 2 * ctx.cipher.tagLen + p.length + chunkSizeLen,
            ctx.salt ++ frame L ctx.cipher (deriveSubkey L ctx.cipher ctx.salt) 0
              (p.take (p.length % 2 ^ 16))⟩, ctx',
          [⟨deriveSubkey L ctx.cipher ctx.salt, leBytes ctx.cipher.nonceLen 0⟩,
            ⟨deriveSubkey L ctx.cipher ctx.salt, leBytes ctx.cipher.nonceLen 1⟩]) ∧
      Sealing ctx.cipher (deriveSubkey L ctx.cipher ctx.salt) 1 ctx' := by
  have htake : (p.take (p.length % 2 ^ 16)).length = p.length % 2 ^ 16 := by
    simp only [List.length_take]; omega
  refine ⟨{ aeadCipherCtxSetSubkey L ctx with init := true, nonce := leBytes ctx.cipher.nonceLen 2 },
    ?_, ⟨rfl, rfl, aeadCipherCtxSetSubkey_sessionKey L ctx, rfl⟩⟩
  simp only [aeadEncrypt, List.length_eq_zero, hp, if_false, hinit, Bool.false_eq_true,
    aeadChunkEncrypt_eq _ _ p _ hlen (Nat.mod_le _ _), Option.map_some',
    aeadCipherCtxSetSubkey_sessionKey, aeadCipherCtxSetSubkey_nonce, aeadCipherCtxSetSubkey_cipher,
    sodiumIncrement_leBytes, frame, htake]
  simp only [CipherCtx.sessionKey, aeadCipherKey, aeadCipherCtxSetSubkey]
  split <;> rfl

theorem take_mod_of_le {p : Bytes} (h : p.length ≤ chunkSizeMask) :
    p.take (p.length % 2 ^ 16) = p := by
  rw [Nat.mod_eq_of_lt (by unfold chunkSizeMask at h; omega), List.take_length]

theorem mod_le_of_le {p : Bytes} (h : p.length ≤ chunkSizeMask) :
    p.length % 2 ^ 16 ≤ chunkSizeMask := by
  rwa [Nat.mod_eq_of_lt (by unfold chunkSizeMask at h; omega)]

/-! ## Runs -/

theorem length_sealedBuffers (L : CryptoLib) (c : Cipher) (sk : Bytes) :
    ∀ (salt : Option Bytes) (i : Nat) (ps : List Bytes),
      (sealedBuffers L c sk salt i ps).length = ps.length
  | _, _, [] => rfl
  | salt, i, p :: ps => by
    unfold sealedBuffers
    split <;> simp [length_sealedBuffers]

theorem length_sealSchedule (w : Nat) (sk : Bytes) :
    ∀ (i : Nat) (ps : List Bytes), (sealSchedule w sk i ps).length = ps.length
  | _, [] => rfl
  | i, p :: ps => by
    unfold sealSchedule
    split <;> simp [length_sealSchedule]

theorem encryptRun_sealing (L : CryptoLib) {c : Cipher} {sk : Bytes} :
    ∀ (ps : List Bytes) {i : Nat} {ctx : CipherCtx}, Sealing c sk i ctx →
      (∀ p ∈ ps, p.length ≤ chunkSizeMask) →
      ∃ ctx', encryptRun L ctx ps = some ((sealedBuffers L c sk none i ps).zip
          (sealSchedule c.nonceLen sk i ps), ctx') ∧
        Sealing c sk (i + chunkCount ps) ctx'
  | [], i, ctx, hs, _ => ⟨ctx, rfl, hs⟩
  | p :: ps, i, ctx, hs, hps => by
    have hrest := fun q hq => hps q (List.mem_cons_of_mem p hq)
    by_cases hp : p = []
    · subst hp
      obtain ⟨ctx', hrun, hs'⟩ := encryptRun_sealing L ps hs hrest
      exact ⟨ctx', by simp [encryptRun, aeadEncrypt_nil, hrun, sealedBuffers, sealSchedule],
        by simpa [chunkCount_cons] using hs'⟩
    · obtain ⟨ctx₁, hcall, hs₁⟩ := aeadEncrypt_sealing L hs hp (hps p (List.mem_cons_self p ps))
      obtain ⟨ctx', hrun, hs'⟩ := encryptRun_sealing L ps hs₁ hrest
      refine ⟨ctx', by simp [encryptRun, hcall, hrun, sealedBuffers, sealSchedule, hp], ?_⟩
      rwa [chunkCount_cons, if_neg hp, show i + (chunkCount ps + 1) = i + 1 + chunkCount ps by omega]

/-- A run from a context that has not sent its salt: nothing happens until the first
non-empty plaintext, which derives the subkey from the salt and sends the salt. -/
theorem encryptRun_fresh (L : CryptoLib) :
    ∀ (ps : List Bytes) {ctx : CipherCtx}, ctx.init = false →
      (∀ p ∈ ps, p.length ≤ chunkSizeMask) →
      ∃ ctx', encryptRun L ctx ps = some ((sealedBuffers L ctx.cipher
          (deriveSubkey L ctx.cipher ctx.salt) (some ctx.salt) 0 ps).zip
          (sealSchedule ctx.cipher.nonceLen (deriveSubkey L ctx.cipher ctx.salt) 0 ps), ctx') ∧
        (chunkCount ps = 0 ∧ ctx' = ctx ∨
          0 < chunkCount ps ∧
            Sealing ctx.cipher (deriveSubkey L ctx.cipher ctx.salt) (chunkCount ps) ctx')
  | [], ctx, _, _ => ⟨ctx, rfl, .inl ⟨rfl, rfl⟩⟩
  | p :: ps, ctx, hinit, hps => by
    have hrest := fun q hq => hps q (List.mem_cons_of_mem p hq)
    by_cases hp : p = []
    · subst hp
      obtain ⟨ctx', hrun, hend⟩ := encryptRun_fresh L ps hinit hrest
      exact ⟨ctx', by simp [encryptRun, aeadEncrypt_nil, hrun, sealedBuffers, sealSchedule],
        by simpa [chunkCount_cons] using hend⟩
    · have hlen := hps p (List.mem_cons_self p ps)
      obtain ⟨ctx₁, hcall, hs₁⟩ := aeadEncrypt_first L hinit hp (mod_le_of_le hlen)
      rw [take_mod_of_le hlen] at hcall
      obtain ⟨ctx', hrun, hs'⟩ := encryptRun_sealing L ps hs₁ hrest
      refine ⟨ctx', by simp [encryptRun, hcall, hrun, sealedBuffers, sealSchedule, hp],
        .inr ⟨by simp [chunkCount_cons, hp], ?_⟩⟩
      rwa [chunkCount_cons, if_neg hp, Nat.add_comm]

theorem join_sealSchedule (w : Nat) (sk : Bytes) :
    ∀ (i : Nat) (ps : List Bytes), (sealSchedule w sk i ps).flatten =
      (List.range' (2 * i) (2 * chunkCount ps)).map fun j => ⟨sk, leBytes w j⟩
  | _, [] => rfl
  | i, p :: ps => by
    by_cases hp : p = []
    · simp [sealSchedule, hp, chunkCount_cons, join_sealSchedule w sk i ps]
    · simp only [sealSchedule, hp, if_false, List.flatten_cons, join_sealSchedule w sk (i + 1) ps,
        chunkCount_cons, Nat.mul_add, Nat.mul_one, List.range', List.map_cons]
      rfl

/-- Below `2^(8w)` no counter value comes twice, so no key and nonce pair does. -/
theorem nodup_sealCalls (w : Nat) (sk : Bytes) {m : Nat} (hm : m ≤ 2 ^ (8 * w)) :
    ((List.range m).map fun j => (⟨sk, leBytes w j⟩ : SealCall)).Nodup := by
  refine (List.nodup_range m).map_on fun x hx y hy hxy => ?_
  rw [List.mem_range] at hx hy
  rw [show 2 ^ (8 * w) = 256 ^ w by rw [Nat.pow_mul]] at hm
  exact leBytes_injective (by omega) (by omega) (SealCall.mk.inj hxy).2

/-- The nonce discipline of the sending side: each non-empty call seals exactly twice and an
empty one never, all under the subkey of the salt, with nonces `LE(0), LE(1), …` in order;
the counter ends at `LE(2k)` for `k` chunks, and no key and nonce pair repeats while the
counter has not wrapped. -/
theorem tcp_nonce_discipline (L : CryptoLib) (c : Cipher) (rand : Bytes) (ps : List Bytes)
    (hps : ∀ p ∈ ps, p.length ≤ chunkSizeMask) :
    ∃ outs ctx, encryptRun L (aeadCtxInit c true rand) ps = some (outs, ctx) ∧
      outs.map Prod.snd = sealSchedule c.nonceLen (deriveSubkey L c rand) 0 ps ∧
      (outs.map Prod.snd).flatten = (List.range (2 * chunkCount ps)).map
        (fun j => ⟨deriveSubkey L c rand, leBytes c.nonceLen j⟩) ∧
      ctx.nonce = leBytes c.nonceLen (2 * chunkCount ps % 2 ^ (8 * c.nonceLen)) ∧
      ctx.init = decide (0 < chunkCount ps) ∧
      (2 * chunkCount ps ≤ 2 ^ (8 * c.nonceLen) → (outs.map Prod.snd).flatten.Nodup) := by
  obtain ⟨ctx, hrun, hend⟩ := encryptRun_fresh L ps (aeadCtxInit_init c true rand) hps
  simp only [aeadCtxInit_cipher, aeadCtxInit_salt_true] at hrun hend
  have hcalls : (((sealedBuffers L c (deriveSubkey L c rand) (some rand) 0 ps).zip
      (sealSchedule c.nonceLen (deriveSubkey L c rand) 0 ps)).map Prod.snd) =
      sealSchedule c.nonceLen (deriveSubkey L c rand) 0 ps :=
    List.map_snd_zip _ _ (by rw [length_sealedBuffers, length_sealSchedule])
  have hjoin : ((sealSchedule c.nonceLen (deriveSubkey L c rand) 0 ps)).flatten =
      (List.range (2 * chunkCount ps)).map
        (fun j => ⟨deriveSubkey L c rand, leBytes c.nonceLen j⟩) := by
    rw [join_sealSchedule, Nat.mul_zero, List.range_eq_range']
  refine ⟨_, ctx, hrun, hcalls, by rw [hcalls, hjoin], ?_, ?_,
    fun h => by rw [hcalls, hjoin]; exact nodup_sealCalls _ _ h⟩
  · rw [leBytes_mod]
    rcases hend with ⟨h0, rfl⟩ | ⟨-, hs⟩
    · simp [h0]
    · exact hs.nonce
  · rcases hend with ⟨h0, rfl⟩ | ⟨hpos, hs⟩
    · simp [h0]
    · simp [hs.init, hpos]

/-- Three plaintexts, the middle one empty, under `aes-256-gcm` keyed from the password `pw`,
with a 32-byte salt, over the transparent library. -/
theorem tcp_nonce_discipline_three :
    (∀ p ∈ ([[1], [], [2, 3]] : List Bytes), p.length ≤ chunkSizeMask) ∧
    ∃ outs ctx, encryptRun CryptoLib.plain
        (aeadCtxInit (aeadKeyInit CryptoLib.plain .aes256gcm [112, 119]) true
          (List.replicate 32 5)) [[1], [], [2, 3]] = some (outs, ctx) ∧
      outs.map Prod.snd = sealSchedule 12 (deriveSubkey CryptoLib.plain
        (aeadKeyInit CryptoLib.plain .aes256gcm [112, 119]) (List.replicate 32 5)) 0
        [[1], [], [2, 3]] ∧
      (outs.map Prod.snd).flatten = (List.range (2 * chunkCount [[1], [], [2, 3]])).map
        (fun j => ⟨deriveSubkey CryptoLib.plain (aeadKeyInit CryptoLib.plain .aes256gcm [112, 119])
          (List.replicate 32 5), leBytes 12 j⟩) ∧
      ctx.nonce = leBytes 12 (2 * chunkCount [[1], [], [2, 3]] % 2 ^ (8 * 12)) ∧
      ctx.init = decide (0 < chunkCount [[1], [], [2, 3]]) ∧
      (2 * chunkCount [[1], [], [2, 3]] ≤ 2 ^ (8 * 12) → (outs.map Prod.snd).flatten.Nodup) :=
  ⟨by decide, tcp_nonce_discipline CryptoLib.plain (aeadKeyInit CryptoLib.plain .aes256gcm [112, 119])
    (List.replicate 32 5) [[1], [], [2, 3]] (by decide)⟩

/-- At `2^(8w)` the counter wraps and `LE(0)` comes again, so the pairs below `m` are distinct
exactly when `m ≤ 2^(8w)`. -/
theorem nodup_sealCalls_iff (w : Nat) (sk : Bytes) (m : Nat) :
    ((List.range m).map fun j => (⟨sk, leBytes w j⟩ : SealCall)).Nodup ↔ m ≤ 2 ^ (8 * w) := by
  refine ⟨fun h => Nat.not_lt.mp fun hm => ?_, nodup_sealCalls w sk⟩
  have hpos : 0 < 2 ^ (8 * w) := Nat.two_pow_pos _
  have hwrap : leBytes w (2 ^ (8 * w)) = leBytes w 0 := by rw [← leBytes_mod, Nat.mod_self]
  have h0 := List.inj_on_of_nodup_map h (List.mem_range.mpr hm)
    (List.mem_range.mpr (hpos.trans hm)) (by rw [hwrap])
  omega

/-- What a run from a fresh context returns: the buffers `sealedBuffers` describes, and seal
calls two per chunk under the salt's subkey, the nonces counting from `LE(0)`. -/
theorem encryptRun_fresh_outs (L : CryptoLib) (c : Cipher) (rand : Bytes) (ps : List Bytes)
    (hps : ∀ p ∈ ps, p.length ≤ chunkSizeMask) :
    ∃ outs ctx, encryptRun L (aeadCtxInit c true rand) ps = some (outs, ctx) ∧
      outs.map Prod.fst = sealedBuffers L c (deriveSubkey L c rand) (some rand) 0 ps ∧
      (outs.map Prod.snd).flatten = (List.range (2 * chunkCount ps)).map
        (fun j => ⟨deriveSubkey L c rand, leBytes c.nonceLen j⟩) := by
  obtain ⟨ctx, hrun, -⟩ := encryptRun_fresh L ps (aeadCtxInit_init c true rand) hps
  simp only [aeadCtxInit_cipher, aeadCtxInit_salt_true] at hrun
  have hlen := (length_sealedBuffers L c (deriveSubkey L c rand) (some rand) 0 ps).trans
    (length_sealSchedule c.nonceLen (deriveSubkey L c rand) 0 ps).symm
  refine ⟨_, ctx, hrun, List.map_fst_zip _ _ hlen.le, ?_⟩
  rw [List.map_snd_zip _ _ hlen.ge, join_sealSchedule, Nat.mul_zero, List.range_eq_range']

/-- The nonce bound of the sending side is exact, and past it the counter wraps.  Encrypt any
plaintexts of at most `0x3FFF` bytes from a fresh context.  Seal call `j` is made under the
salt's subkey with the nonce `LE(j mod 2^(8 * nonce_len))`: `sodium_increment` lets the counter
wrap, it does not stop.  So the key and nonce pairs are pairwise distinct exactly when the
stream has at most `2^(8 * nonce_len - 1)` chunks, and one chunk more makes call
`2^(8 * nonce_len)` under `LE(0)` and the same subkey, as call `0` was. -/
theorem tcp_nonce_reuse_threshold (L : CryptoLib) (c : Cipher) (rand : Bytes) (ps : List Bytes)
    (hps : ∀ p ∈ ps, p.length ≤ chunkSizeMask) :
    ∃ outs ctx, encryptRun L (aeadCtxInit c true rand) ps = some (outs, ctx) ∧
      (∀ j < 2 * chunkCount ps, (outs.map Prod.snd).flatten[j]? =
        some ⟨deriveSubkey L c rand, leBytes c.nonceLen (j % 2 ^ (8 * c.nonceLen))⟩) ∧
      ((outs.map Prod.snd).flatten.Nodup ↔ 2 * chunkCount ps ≤ 2 ^ (8 * c.nonceLen)) ∧
      (2 ^ (8 * c.nonceLen) < 2 * chunkCount ps →
        (outs.map Prod.snd).flatten[2 ^ (8 * c.nonceLen)]? =
          some ⟨deriveSubkey L c rand, leBytes c.nonceLen 0⟩ ∧
        (outs.map Prod.snd).flatten[0]? = some ⟨deriveSubkey L c rand, leBytes c.nonceLen 0⟩) := by
  obtain ⟨outs, ctx, hrun, -, hcalls⟩ := encryptRun_fresh_outs L c rand ps hps
  have hcall : ∀ j < 2 * chunkCount ps, (outs.map Prod.snd).flatten[j]? =
      some ⟨deriveSubkey L c rand, leBytes c.nonceLen (j % 2 ^ (8 * c.nonceLen))⟩ :=
    fun j hj => by simp [hcalls, List.getElem?_range hj, leBytes_mod]
  refine ⟨outs, ctx, hrun, hcall, by rw [hcalls, nodup_sealCalls_iff], fun hwrap => ⟨?_, ?_⟩⟩
  · rw [hcall _ hwrap, Nat.mod_self]
  · rw [hcall 0 (Nat.lt_of_le_of_lt (Nat.zero_le _) hwrap), Nat.zero_mod]

/-- Two `chacha20-poly1305` plaintexts, the second empty, keyed from the password `pw`, with a
32-byte salt, over the transparent library. -/
theorem tcp_nonce_reuse_threshold_two :
    (∀ p ∈ ([[1], []] : List Bytes), p.length ≤ chunkSizeMask) ∧
    ∃ outs ctx, encryptRun CryptoLib.plain
        (aeadCtxInit (aeadKeyInit CryptoLib.plain .chacha20poly1305 [112, 119]) true
          (List.replicate 32 5)) [[1], []] = some (outs, ctx) ∧
      (∀ j < 2 * chunkCount [[1], []], (outs.map Prod.snd).flatten[j]? =
        some ⟨deriveSubkey CryptoLib.plain (aeadKeyInit CryptoLib.plain .chacha20poly1305 [112, 119])
          (List.replicate 32 5), leBytes 8 (j % 2 ^ (8 * 8))⟩) ∧
      ((outs.map Prod.snd).flatten.Nodup ↔ 2 * chunkCount [[1], []] ≤ 2 ^ (8 * 8)) ∧
      (2 ^ (8 * 8) < 2 * chunkCount [[1], []] →
        (outs.map Prod.snd).flatten[2 ^ (8 * 8)]? =
          some ⟨deriveSubkey CryptoLib.plain (aeadKeyInit CryptoLib.plain .chacha20poly1305 [112, 119])
            (List.replicate 32 5), leBytes 8 0⟩ ∧
        (outs.map Prod.snd).flatten[0]? =
          some ⟨deriveSubkey CryptoLib.plain (aeadKeyInit CryptoLib.plain .chacha20poly1305 [112, 119])
            (List.replicate 32 5), leBytes 8 0⟩) :=
  ⟨by decide, tcp_nonce_reuse_threshold CryptoLib.plain
    (aeadKeyInit CryptoLib.plain .chacha20poly1305 [112, 119]) (List.replicate 32 5) [[1], []]
    (by decide)⟩

/-- A plaintext of `65537` bytes: `(uint16_t)65537` is `1`, so the assertion passes, one byte is
sealed in a chunk whose length field says `1`, and the call returns a buffer that declares
all `65537` bytes but holds only the salt and that one chunk. -/
theorem aeadEncrypt_truncated_length (L : CryptoLib) (c : Cipher) (rand : Bytes) :
    (aeadEncrypt L (aeadCtxInit c true rand) (List.replicate 65537 0)).map Prod.fst =
      some ⟨c.keyLen + 2 * c.tagLen + 65537 + chunkSizeLen,
        rand ++ frame L c (deriveSubkey L c rand) 0 [0]⟩ := by
  obtain ⟨ctx', h, -⟩ := aeadEncrypt_first L (aeadCtxInit_init c true rand)
    (p := List.replicate 65537 0)
    (List.ne_nil_of_length_pos (by rw [List.length_replicate]; decide))
    (by rw [List.length_replicate]; decide)
  rw [h]
  simp only [Option.map_some', aeadCtxInit_cipher, aeadCtxInit_salt_true, List.length_replicate,
    List.take_replicate]
  rfl

end ShadowAead

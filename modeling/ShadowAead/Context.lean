import ShadowAead.Catalog
/-
# `ShadowAead.Context` — `cipher_ctx_t`, key setup, and the primitive adapter

A context is one direction of one connection.  Its fixed-size arrays are modelled by
the prefix the code uses: `key_len` bytes of salt and subkey, `nonce_len` bytes of
nonce.  `evp` is the key installed in the mbed TLS context: the AES-GCM primitives read
their key from there, and the libsodium ones take it as an argument, so which key a
primitive call really uses is `aeadCipherKey`.

The adapter `aeadCipherEncrypt` reports, beside its output, the key and nonce it handed
to the primitive (`SealCall`).  That record is ghost state: the code computes nothing
from it, and the nonce-discipline theorems are statements about it.

The replay filter (`fs_sbf_*`, compiled in under `MODULE_REMOTE`) is modelled as the
exact set of salts it was given: `fsSbfCheck` is membership and `fsSbfAdd` inserts.
-/

namespace ShadowAead

/-- `cipher_ctx_t`. -/
structure CipherCtx where
  cipher : Cipher
  init : Bool
  salt : Bytes
  subkey : Bytes
  nonce : Bytes
  /-- The key installed in the mbed TLS context `evp`. -/
  evp : Bytes
  /-- The reassembly buffer `chunk`; a `NULL` buffer is the empty one. -/
  chunk : Bytes

/-- `aead_ctx_init(cipher, ctx, enc)`: a zeroed context; an encrypting one draws its salt,
`rand` being the `key_len` bytes `rand_bytes` writes. -/
def aeadCtxInit (cipher : Cipher) (enc : Bool) (rand : Bytes) : CipherCtx where
  cipher := cipher
  init := false
  salt := if enc then rand else List.replicate cipher.keyLen 0
  subkey := List.replicate cipher.keyLen 0
  nonce := List.replicate cipher.nonceLen 0
  evp := []
  chunk := []

section Init

variable (cipher : Cipher) (enc : Bool) (rand : Bytes)

@[simp] theorem aeadCtxInit_cipher : (aeadCtxInit cipher enc rand).cipher = cipher := rfl

@[simp] theorem aeadCtxInit_init : (aeadCtxInit cipher enc rand).init = false := rfl

@[simp] theorem aeadCtxInit_nonce :
    (aeadCtxInit cipher enc rand).nonce = leBytes cipher.nonceLen 0 := (leBytes_zero _).symm

@[simp] theorem aeadCtxInit_chunk : (aeadCtxInit cipher enc rand).chunk = [] := rfl

@[simp] theorem aeadCtxInit_salt_true : (aeadCtxInit cipher true rand).salt = rand := rfl

end Init

/-- The session subkey of a salt: BLAKE2b keyed with the master key, reading only the
first 16 (`crypto_generichash_blake2b_SALTBYTES`) bytes of the salt. -/
def deriveSubkey (L : CryptoLib) (c : Cipher) (salt : Bytes) : Bytes :=
  L.blake2bSaltPersonal c.keyLen c.key (salt.take 16)

/-- Salts that agree on their first sixteen bytes have the same subkey. -/
theorem deriveSubkey_take (L : CryptoLib) (c : Cipher) (salt : Bytes) :
    deriveSubkey L c (salt.take 16) = deriveSubkey L c salt := by
  rw [deriveSubkey, deriveSubkey, List.take_take, min_self]

/-- `aead_cipher_ctx_set_subkey`: derive the subkey, restart the nonce at zero, and for
AES-GCM install the subkey in the mbed TLS context. -/
def aeadCipherCtxSetSubkey (L : CryptoLib) (ctx : CipherCtx) : CipherCtx :=
  let subkey := deriveSubkey L ctx.cipher ctx.salt
  { ctx with
    subkey
    nonce := List.replicate ctx.cipher.nonceLen 0
    evp := if ctx.cipher.method.usesMbedtls then subkey else ctx.evp }

/-- `aead_cipher_ctx_udp_set_key`: for AES-GCM, install the master key. -/
def aeadCipherCtxUdpSetKey (ctx : CipherCtx) : CipherCtx :=
  if ctx.cipher.method.usesMbedtls then { ctx with evp := ctx.cipher.key } else ctx

/-- The key a primitive call uses: the installed one for AES-GCM, the argument `k` for
the libsodium constructions. -/
def aeadCipherKey (ctx : CipherCtx) (k : Bytes) : Bytes :=
  if ctx.cipher.method.usesMbedtls then ctx.evp else k

/-- The key and nonce one call of the AEAD primitive received. -/
structure SealCall where
  key : Bytes
  nonce : Bytes
  deriving DecidableEq

/-- `aead_cipher_encrypt(ctx, c, &clen, m, mlen, NULL, 0, n, k)`: the sealed bytes, and
the key and nonce handed to the primitive. -/
def aeadCipherEncrypt (L : CryptoLib) (ctx : CipherCtx) (m n k : Bytes) : Bytes × SealCall :=
  (L.authEncrypt ctx.cipher.method (aeadCipherKey ctx k) n m, ⟨aeadCipherKey ctx k, n⟩)

/-- `aead_cipher_decrypt(ctx, p, &plen, m, mlen, NULL, 0, n, k)`.  The outer `Option` is
the AES-GCM path's `mlen - tlen`, which must not wrap; the inner one is the primitive's
verdict. -/
def aeadCipherDecrypt (L : CryptoLib) (ctx : CipherCtx) (m n k : Bytes) :
    Option (Option Bytes) :=
  if ctx.cipher.method.usesMbedtls then
    (sizeSub m.length ctx.cipher.tagLen).map fun _ =>
      L.authDecrypt ctx.cipher.method ctx.evp n m
  else some (L.authDecrypt ctx.cipher.method k n m)

theorem aeadCipherDecrypt_of_le (L : CryptoLib) (ctx : CipherCtx) {m : Bytes} (n k : Bytes)
    (h : ctx.cipher.tagLen ≤ m.length) :
    aeadCipherDecrypt L ctx m n k =
      some (L.authDecrypt ctx.cipher.method (aeadCipherKey ctx k) n m) := by
  unfold aeadCipherDecrypt aeadCipherKey
  split <;> simp [h]

/-- The library contract read off a cipher: an opening is `tag_len` bytes shorter. -/
theorem authDecrypt_length_tagLen {L : CryptoLib} {c : Cipher} {k n m p : Bytes}
    (h : L.authDecrypt c.method k n m = some p) : p.length + c.tagLen = m.length :=
  L.authDecrypt_length _ _ _ _ _ h

/-- The key a context's TCP chunks are sealed and opened under. -/
def CipherCtx.sessionKey (ctx : CipherCtx) : Bytes := aeadCipherKey ctx ctx.subkey

/-! ## Setting the subkey -/

section SetSubkey

variable (L : CryptoLib) (ctx : CipherCtx)

@[simp] theorem aeadCipherCtxSetSubkey_cipher : (aeadCipherCtxSetSubkey L ctx).cipher = ctx.cipher :=
  rfl

@[simp] theorem aeadCipherCtxSetSubkey_init : (aeadCipherCtxSetSubkey L ctx).init = ctx.init := rfl

@[simp] theorem aeadCipherCtxSetSubkey_salt : (aeadCipherCtxSetSubkey L ctx).salt = ctx.salt := rfl

@[simp] theorem aeadCipherCtxSetSubkey_chunk : (aeadCipherCtxSetSubkey L ctx).chunk = ctx.chunk :=
  rfl

@[simp] theorem aeadCipherCtxSetSubkey_nonce :
    (aeadCipherCtxSetSubkey L ctx).nonce = leBytes ctx.cipher.nonceLen 0 := by
  simp [aeadCipherCtxSetSubkey, leBytes_zero]

/-- Whichever library a method uses, the session key is the derived subkey. -/
@[simp] theorem aeadCipherCtxSetSubkey_sessionKey :
    (aeadCipherCtxSetSubkey L ctx).sessionKey = deriveSubkey L ctx.cipher ctx.salt := by
  simp only [CipherCtx.sessionKey, aeadCipherKey, aeadCipherCtxSetSubkey]
  split <;> simp_all

end SetSubkey

/-! ## The replay filter and the return codes -/

/-- The salts the replay filter `fs_sbf` has been given. -/
abbrev Sbf := List Bytes

/-- `fs_sbf_check(salt, len) == 1`, for a filter that holds exactly the salts it was given.  The
scaling Bloom filter behind it may also report a salt it was never given; that refuses a
connection or a datagram the model accepts, and never the other way round. -/
def fsSbfCheck (g : Sbf) (salt : Bytes) : Bool := decide (salt ∈ g)

/-- `fs_sbf_add(salt, len)`. -/
def fsSbfAdd (g : Sbf) (salt : Bytes) : Sbf := salt :: g

/-- `CRYPTO_OK` with the plaintext the call leaves in the caller's buffer,
`CRYPTO_NEED_MORE`, or `CRYPTO_ERROR`. -/
inductive Reply where
  | ok (plaintext : Bytes)
  | needMore
  | error
  deriving DecidableEq, Repr

/-- The plaintext a call hands back: none unless it returned `CRYPTO_OK`. -/
def Reply.plaintext : Reply → Bytes
  | .ok p => p
  | _ => []

end ShadowAead

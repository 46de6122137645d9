import ShadowAead.Basic
/-
# `ShadowAead.Catalog` — methods, the crypto libraries, and `aead_init`

The six methods and their tables, `cipher_t`, and the two libraries `aead.c` calls into
(mbed TLS for AES-GCM, libsodium for the ChaCha family and for BLAKE2b).  The libraries
are not in the repository; `CryptoLib` takes them as functions, with the one contract the
code relies on and asserts at every call site: sealing appends exactly `tag_len` bytes,
and a successful opening gives back `tag_len` bytes fewer.  Nothing else about them is
assumed here; the round-trip theorems add `CryptoLib.Inverts` where they need it.

`Cipher` keeps the method and the master key.  `key_len`, `nonce_len` and `tag_len` are
the method's table entries, which is what `aead_key_init` stores, so they are read off
the method rather than stored a second time.
-/

namespace ShadowAead

/-- The method ids `AES128GCM` … `XCHACHA20POLY1305IETF`. -/
inductive Method where
  | aes128gcm
  | aes192gcm
  | aes256gcm
  | chacha20poly1305
  | chacha20poly1305ietf
  | xchacha20poly1305ietf
  deriving DecidableEq, Repr

namespace Method

/-- The methods in id order, the order that indexes every table. -/
def all : List Method :=
  [aes128gcm, aes192gcm, aes256gcm, chacha20poly1305, chacha20poly1305ietf,
    xchacha20poly1305ietf]

/-- `method < CHACHA20POLY1305`: the methods driven through an mbed TLS context. -/
def usesMbedtls : Method → Bool
  | aes128gcm | aes192gcm | aes256gcm => true
  | _ => false

end Method

/-- `supported_aead_ciphers`. -/
def supportedAeadCiphers : Method → String
  | .aes128gcm => "aes-128-gcm"
  | .aes192gcm => "aes-192-gcm"
  | .aes256gcm => "aes-256-gcm"
  | .chacha20poly1305 => "chacha20-poly1305"
  | .chacha20poly1305ietf => "chacha20-ietf-poly1305"
  | .xchacha20poly1305ietf => "xchacha20-ietf-poly1305"

/-- `supported_aead_ciphers_nonce_size`. -/
def supportedAeadCiphersNonceSize : Method → Nat
  | .chacha20poly1305 => 8
  | .xchacha20poly1305ietf => 24
  | _ => 12

/-- `supported_aead_ciphers_key_size`. -/
def supportedAeadCiphersKeySize : Method → Nat
  | .aes128gcm => 16
  | .aes192gcm => 24
  | _ => 32

/-- `supported_aead_ciphers_tag_size`. -/
def supportedAeadCiphersTagSize : Method → Nat
  | _ => 16

/-! ## The libraries -/

/-- What `aead.c` calls in libsodium and mbed TLS. -/
structure CryptoLib where
  /-- The AEAD of a method: seal `p` under key `k` and nonce `n`, ciphertext then tag. -/
  authEncrypt : Method → Bytes → Bytes → Bytes → Bytes
  /-- Open ciphertext-then-tag; `none` when authentication fails. -/
  authDecrypt : Method → Bytes → Bytes → Bytes → Option Bytes
  /-- `crypto_generichash(out, outlen, in, inlen, NULL, 0)`. -/
  generichash : Nat → Bytes → Bytes
  /-- `crypto_generichash_blake2b_salt_personal(out, outlen, NULL, 0, key, keylen, salt,
  SUBKEY_APPID)`, the personal string fixed. -/
  blake2bSaltPersonal : Nat → Bytes → Bytes → Bytes
  authEncrypt_length : ∀ m k n p,
    (authEncrypt m k n p).length = p.length + supportedAeadCiphersTagSize m
  authDecrypt_length : ∀ m k n c p, authDecrypt m k n c = some p →
    p.length + supportedAeadCiphersTagSize m = c.length

/-- Opening what was sealed under the same method, key and nonce gives it back. -/
def CryptoLib.Inverts (L : CryptoLib) : Prop :=
  ∀ m k n p, L.authDecrypt m k n (L.authEncrypt m k n p) = some p

/-- A transparent instance: the tag is zeros and the ciphertext is the plaintext.  It
meets the contract and inverts, so neither assumption is empty. -/
def CryptoLib.plain : CryptoLib where
  authEncrypt m _ _ p := p ++ List.replicate (supportedAeadCiphersTagSize m) 0
  authDecrypt m _ _ c :=
    if supportedAeadCiphersTagSize m ≤ c.length then
      some (c.take (c.length - supportedAeadCiphersTagSize m))
    else none
  generichash n _ := List.replicate n 0
  blake2bSaltPersonal n _ _ := List.replicate n 0
  authEncrypt_length := by simp
  authDecrypt_length m _ _ c p h := by
    simp only [Option.ite_none_right_eq_some, Option.some.injEq] at h
    obtain ⟨hle, rfl⟩ := h
    simp only [List.length_take]
    omega

theorem CryptoLib.plain_inverts : CryptoLib.plain.Inverts := by
  intro m k n p
  simp [CryptoLib.plain]

/-- Opening succeeds only on what was sealed under the same method, key and nonce: the
library admits no forgery. -/
def CryptoLib.Authentic (L : CryptoLib) : Prop :=
  ∀ m k n c p, L.authDecrypt m k n c = some p → c = L.authEncrypt m k n p

/-- The transparent instance with its tag checked: it opens only a ciphertext that ends in
the zero tag. -/
def CryptoLib.checked : CryptoLib where
  authEncrypt := CryptoLib.plain.authEncrypt
  authDecrypt m _ _ c :=
    if c.drop (c.length - supportedAeadCiphersTagSize m) =
        List.replicate (supportedAeadCiphersTagSize m) 0 then
      some (c.take (c.length - supportedAeadCiphersTagSize m))
    else none
  generichash := CryptoLib.plain.generichash
  blake2bSaltPersonal := CryptoLib.plain.blake2bSaltPersonal
  authEncrypt_length := CryptoLib.plain.authEncrypt_length
  authDecrypt_length m _ _ c p h := by
    simp only [Option.ite_none_right_eq_some, Option.some.injEq] at h
    obtain ⟨htag, rfl⟩ := h
    have := congrArg List.length htag
    simp only [List.length_drop, List.length_replicate] at this
    simp only [List.length_take]
    omega

theorem CryptoLib.checked_authentic : CryptoLib.checked.Authentic := by
  intro m k n c p h
  simp only [CryptoLib.checked, Option.ite_none_right_eq_some, Option.some.injEq] at h
  obtain ⟨htag, rfl⟩ := h
  conv_lhs => rw [← List.take_append_drop (c.length - supportedAeadCiphersTagSize m) c, htag]
  rfl

/-! ## `cipher_t` and `aead_init` -/

/-- `cipher_t`: the method and the master key. -/
structure Cipher where
  method : Method
  key : Bytes

namespace Cipher

/-- `cipher->key_len`, which is also the salt length. -/
def keyLen (c : Cipher) : Nat := supportedAeadCiphersKeySize c.method

/-- `cipher->nonce_len`. -/
def nonceLen (c : Cipher) : Nat := supportedAeadCiphersNonceSize c.method

/-- `cipher->tag_len`. -/
def tagLen (c : Cipher) : Nat := supportedAeadCiphersTagSize c.method

end Cipher

/-- `aead_key_init`: the master key is `crypto_generichash` of the password, `key_len`
bytes long. -/
def aeadKeyInit (L : CryptoLib) (method : Method) (pass : Bytes) : Cipher :=
  { method, key := L.generichash (supportedAeadCiphersKeySize method) pass }

/-- `aead_init`: the first method whose name is `method`; an unknown name falls back to
`aes-256-gcm`, and no name at all means `AES128GCM`. -/
def aeadInit (L : CryptoLib) (pass : Bytes) (method : Option String) : Cipher :=
  aeadKeyInit L
    (match method with
      | none => .aes128gcm
      | some name => (Method.all.find? (supportedAeadCiphers · = name)).getD .aes256gcm)
    pass

/-- Every supported name selects its own method: the names are pairwise distinct. -/
theorem aeadInit_supported (L : CryptoLib) (pass : Bytes) (m : Method) :
    (aeadInit L pass (some (supportedAeadCiphers m))).method = m := by
  cases m <;> rfl

theorem aeadInit_unknown (L : CryptoLib) (pass : Bytes) (name : String)
    (h : ∀ m, supportedAeadCiphers m ≠ name) :
    (aeadInit L pass (some name)).method = .aes256gcm := by
  have : Method.all.find? (supportedAeadCiphers · = name) = none :=
    List.find?_eq_none.mpr fun m _ => by simpa using h m
  simp [aeadInit, aeadKeyInit, this]

end ShadowAead

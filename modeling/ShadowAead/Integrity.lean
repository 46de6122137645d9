import ShadowAead.Refinement
/-
# `ShadowAead.Integrity` — a decrypter accepts only what the encrypter sends

Over a library that admits no forgery (`CryptoLib.Authentic`: a ciphertext opens only if it is
the sealing of what it opens to), the stream format leaves an attacker nothing to splice.  A
chunk the reference decoder pops is the frame `aead_encrypt` seals for its message at that
chunk's nonces (`decodeStep_authentic`), so the bytes it has read are a salt followed by the
buffers `aead_encrypt` returns for the messages (`referenceDecode_authentic`).

With the simulation of `ShadowAead.Refinement`, this carries over to `aead_decrypt` itself:
on any segments, a run of calls that answers no `CRYPTO_ERROR` has received a salt, the
frames sealed under that salt's subkey for exactly the plaintexts it handed back, in order,
and the bytes it still buffers.  No chunk is dropped, repeated, reordered or moved across
streams without a `CRYPTO_ERROR`.

The same simulation bounds the memory a connection holds: what the reference decoder leaves
pending is less than one chunk, so the reassembly buffer never holds a whole chunk
(`tcp_decrypt_buffer_bounded`).
-/

namespace ShadowAead

section Authentic

variable {L : CryptoLib} {c : Cipher} {sk : Bytes}

/-- A popped chunk is the frame `aead_encrypt` seals for its message under that chunk's
nonces. -/
theorem decodeStep_authentic (hauth : L.Authentic) {i : Nat} {R msg rest : Bytes}
    (h : decodeStep L c sk i R = .chunk msg rest) : R = frame L c sk i msg ++ rest := by
  obtain ⟨hlen, hmsg, rfl, -, -, -⟩ := decodeStep_chunk_inv h
  have hrest : R.drop (2 + 2 * c.tagLen + msg.length) =
      (R.drop (2 + c.tagLen)).drop (msg.length + c.tagLen) := by
    rw [List.drop_drop]
    congr 1
    omega
  rw [frame, ← hauth _ _ _ _ _ hlen, ← hauth _ _ _ _ _ hmsg, hrest, List.append_assoc,
    List.take_append_drop, List.take_append_drop]

/-- The bytes the decoder reads from chunk `i` on are the buffers `aead_encrypt` returns for
the messages, from chunk `i` on; what is left is pending. -/
theorem decodeChunks_authentic (hauth : L.Authentic) (i : Nat) (R : Bytes) :
    ∀ {ms : List Bytes} {rest : Bytes}, decodeChunks L c sk i R = .pending ms rest →
      R = ((sealedBuffers L c sk none i ms).map Buffer.data).flatten ++ rest := by
  induction i, R using decodeChunks.induct L c sk with
  | case1 i R h =>
    intro ms rest hd
    rw [decodeChunks_of_pending h] at hd
    obtain ⟨rfl, rfl⟩ := Decoded.pending.inj hd
    rfl
  | case2 i R h =>
    intro ms rest hd
    rw [decodeChunks_of_error h] at hd
    cases hd
  | case3 i R msg rest' h ih =>
    intro ms rest hd
    obtain ⟨ms', rfl, hd'⟩ := decodeChunks_chunk_pending h hd
    have hne : msg ≠ [] := List.ne_nil_of_length_pos (decodeStep_chunk h).2.2
    rw [decodeStep_authentic hauth h, ih hd']
    simp [sealedBuffers, hne]

/-- What the reference decoder accepts is a stream `aead_encrypt` sends: while the salt is
incomplete nothing is read, and afterwards the bytes are the salt, the buffers sealed under its
subkey for the messages read, and what is pending. -/
theorem referenceDecode_authentic (hauth : L.Authentic) {S : Bytes} {ms : List Bytes}
    {rest : Bytes} (h : referenceDecode L c S = .pending ms rest) :
    S.length ≤ c.keyLen ∧ ms = [] ∧ rest = S ∨
      c.keyLen < S.length ∧ S = S.take c.keyLen ++
        ((sealedBuffers L c (deriveSubkey L c (S.take c.keyLen)) none 0 ms).map
          Buffer.data).flatten ++ rest := by
  by_cases hS : S.length ≤ c.keyLen
  · rw [referenceDecode_short L c hS] at h
    obtain ⟨rfl, rfl⟩ := Decoded.pending.inj h
    exact .inl ⟨hS, rfl, rfl⟩
  · rw [referenceDecode, if_neg hS] at h
    refine .inr ⟨Nat.lt_of_not_le hS, ?_⟩
    rw [List.append_assoc, ← decodeChunks_authentic hauth 0 _ h, List.take_append_drop]

end Authentic

/-! ## The decrypter -/

/-- Integrity of a TCP stream.  Over a library that admits no forgery, feed any segments to a
fresh decrypt context, on either side.  If no call answers `CRYPTO_ERROR`, the bytes received
are a salt, then the buffers `aead_encrypt` returns for the plaintexts handed back, sealed under
that salt's subkey, then the bytes the context still buffers.  The salt is `key_len` bytes once
the context has taken it; before that, nothing was handed back and every byte is buffered. -/
theorem tcp_decrypt_accepts_only_sealed (L : CryptoLib) (hauth : L.Authentic) (c : Cipher)
    (moduleRemote : Bool) (g : Sbf) (segs : List Bytes) :
    ∃ rs ctx g', decryptRun L moduleRemote g (aeadCtxInit c false []) segs = some (rs, ctx, g') ∧
      (.error ∉ rs → ∃ salt ms, (rs.map Reply.plaintext).flatten = ms.flatten ∧
        segs.flatten = salt ++
          ((sealedBuffers L c (deriveSubkey L c salt) none 0 ms).map Buffer.data).flatten ++
            ctx.chunk ∧
        (ctx.init = true ∧ salt.length = c.keyLen ∨ ctx.init = false ∧ salt = [] ∧ ms = [])) := by
  obtain ⟨rs, ctx, g', hrun, hacc⟩ := @decryptRun_fresh_tracks L c moduleRemote g segs
  refine ⟨rs, ctx, g', hrun, fun hrs => ?_⟩
  obtain ⟨ms, hplain, ht⟩ := hacc hrs
  obtain ⟨hshort, rfl, hrest⟩ | ⟨hlong, hS⟩ := referenceDecode_authentic hauth ht.decode
  · exact ⟨[], [], hplain, by rw [hrest]; rfl,
      .inr ⟨by simpa [ht.init] using hshort, rfl, rfl⟩⟩
  · exact ⟨_, ms, hplain, hS,
      .inl ⟨by simpa [ht.init] using hlong, by rw [List.length_take]; omega⟩⟩

/-- A `chacha20-poly1305` stream of one chunk holding the byte `7`, keyed from the password
`pw`, over the library that checks its zero tag, fed to a server in two segments cut inside the length block. -/
theorem tcp_decrypt_accepts_only_sealed_split :
    CryptoLib.checked.Authentic ∧
    ∃ rs ctx g', decryptRun CryptoLib.checked true [] (aeadCtxInit (aeadKeyInit CryptoLib.checked .chacha20poly1305 [112, 119]) false [])
        [List.replicate 33 0, 1 :: List.replicate 16 0 ++ 7 :: List.replicate 16 0] =
        some (rs, ctx, g') ∧
      (.error ∉ rs → ∃ salt ms, (rs.map Reply.plaintext).flatten = ms.flatten ∧
        [List.replicate 33 0, 1 :: List.replicate 16 0 ++ 7 :: List.replicate 16 0].flatten =
          salt ++ ((sealedBuffers CryptoLib.checked (aeadKeyInit CryptoLib.checked .chacha20poly1305 [112, 119])
            (deriveSubkey CryptoLib.checked (aeadKeyInit CryptoLib.checked .chacha20poly1305 [112, 119]) salt) none 0 ms).map
              Buffer.data).flatten ++ ctx.chunk ∧
        (ctx.init = true ∧ salt.length = Cipher.keyLen (aeadKeyInit CryptoLib.checked .chacha20poly1305 [112, 119]) ∨
          ctx.init = false ∧ salt = [] ∧ ms = [])) :=
  ⟨CryptoLib.checked_authentic,
    tcp_decrypt_accepts_only_sealed _ CryptoLib.checked_authentic _ true [] _⟩

/-! ## The reassembly buffer -/

/-- A decrypt context never buffers a whole chunk.  From a fresh context, on either side and
on any segments, as long as no call has answered `CRYPTO_ERROR` the reassembly buffer holds at
most `key_len` bytes before the salt is taken, and fewer than `2 + 2 * tag_len + 0x3FFF`, the
length of the longest chunk, after.  This holds of any library: the bound comes from the length
check, not from authentication. -/
theorem tcp_decrypt_buffer_bounded (L : CryptoLib) (c : Cipher) (moduleRemote : Bool) (g : Sbf)
    (segs : List Bytes) :
    ∃ rs ctx g', decryptRun L moduleRemote g (aeadCtxInit c false []) segs = some (rs, ctx, g') ∧
      (.error ∉ rs → ctx.init = false ∧ ctx.chunk.length ≤ c.keyLen ∨
        ctx.init = true ∧ ctx.chunk.length < 2 + 2 * c.tagLen + chunkSizeMask) := by
  obtain ⟨rs, ctx, g', hrun, hacc⟩ := @decryptRun_fresh_tracks L c moduleRemote g segs
  refine ⟨rs, ctx, g', hrun, fun hrs => ?_⟩
  obtain ⟨ms, -, ht⟩ := hacc hrs
  obtain ⟨hshort, hrest⟩ | ⟨hlong, hlen⟩ := referenceDecode_pending_length L c ht.decode
  · exact .inl ⟨by simpa [ht.init] using hshort, by rw [hrest]; exact hshort⟩
  · exact .inr ⟨by simpa [ht.init] using hlong, hlen⟩

end ShadowAead

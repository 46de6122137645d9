import ShadowAead.TcpDecrypt
import ShadowAead.Reference
/-
# `ShadowAead.Refinement` — `aead_decrypt` refines the reference decoder

Feeding a byte string to a fresh decrypt context in segments, one `aead_decrypt` call per
segment, delivers what the reference decoder reads from the whole string, whatever the
segments are, as long as the reference decoder does not fail on it.

The proof is a simulation.  `Tracks L c F ms ctx` says that after the bytes `F` the context
is where the reference decoder is after reading `F`: it has handed back the messages `ms`,
buffers exactly the bytes the decoder leaves pending, and holds the nonce `LE(2 |ms|)` of
the next chunk and the subkey of the salt.  One call keeps the relation
(`aeadDecrypt_tracks`), by three facts:

* at the nonce of chunk `i`, `aead_chunk_decrypt` reads chunk `i` as the reference decoder
  does (`aeadChunkDecrypt_refines`), and the loop therefore pops exactly the chunks the
  decoder reads (`decryptLoop_refines`);
* a chunk that is not wholly buffered leaves the nonce where it was, so the length block is
  opened again, under the same nonce, at the next call;
* decoding resumes across the call boundary (`referenceDecode_append`).

The converse holds too: a call answers `CRYPTO_ERROR` as soon as the reference decoder fails
on what has been fed (`aeadDecrypt_tracks_error`), so a client's run fails exactly when the
decoder fails on its bytes (`decryptRun_error_iff`), and two ways of cutting the same bytes
lead to the same outcome.
-/

namespace ShadowAead

/-- The reference decoder's reading of what `aead_chunk_decrypt` returns. -/
def ChunkDecrypt.toStep : ChunkDecrypt → Step
  | .ok p rest _ => .chunk p rest
  | .needMore => .pending
  | .error _ => .error

/-! ## One chunk, and the loop -/

section Loop

variable {L : CryptoLib} {c : Cipher} {sk : Bytes}

/-- At the nonce of chunk `i` and with room for the whole buffer, `aead_chunk_decrypt`
reads chunk `i` as the reference decoder does. -/
theorem aeadChunkDecrypt_refines {ctx : CipherCtx} (hc : ctx.cipher = c)
    (hk : ctx.sessionKey = sk) (room i : Nat) {R : Bytes} (hroom : R.length ≤ room) :
    (aeadChunkDecrypt L ctx room R (leBytes c.nonceLen (2 * i))).map ChunkDecrypt.toStep =
      some (decodeStep L c sk i R) := by
  subst hc hk
  have hlen : 2 * ctx.cipher.tagLen + chunkSizeLen = 2 + 2 * ctx.cipher.tagLen := by
    unfold chunkSizeLen; omega
  by_cases hshort : R.length ≤ 2 + 2 * ctx.cipher.tagLen
  · rw [aeadChunkDecrypt_short L ctx room _ (hlen ▸ hshort), decodeStep, if_pos hshort]
    rfl
  rw [aeadChunkDecrypt_eq L ctx room _ (by omega), decodeStep, if_neg hshort, hlen]
  simp only [chunkSizeLen, chunkSizeMask, sodiumIncrement_leBytes]
  cases L.authDecrypt ctx.cipher.method ctx.sessionKey (leBytes ctx.cipher.nonceLen (2 * i))
      (R.take (2 + ctx.cipher.tagLen)) with
  | none => rfl
  | some lenBuf =>
    dsimp only
    by_cases hbad : ntohs lenBuf = 0 ∨ 16383 < ntohs lenBuf
    · rw [if_pos hbad.symm, if_pos hbad]
      rfl
    rw [if_neg (mt Or.symm hbad), if_neg hbad]
    by_cases hpart : R.length < 2 + 2 * ctx.cipher.tagLen + ntohs lenBuf
    · rw [if_pos hpart, if_pos hpart]
      rfl
    rw [if_neg hpart, if_neg hpart, if_neg (by omega)]
    cases L.authDecrypt ctx.cipher.method ctx.sessionKey (leBytes ctx.cipher.nonceLen (2 * i + 1))
        ((R.drop (2 + ctx.cipher.tagLen)).take (ntohs lenBuf + ctx.cipher.tagLen)) <;> rfl

/-- One turn of the loop at the nonce of chunk `i`, with room for the buffer, follows the
reference decoder's verdict: pending is `CRYPTO_NEED_MORE`, an error is `CRYPTO_ERROR`, and a
chunk is popped, the loop going on from the next chunk's nonce. -/
theorem decryptLoop_turn {room i : Nat} {ctx : CipherCtx} {plain : Bytes} (hc : ctx.cipher = c)
    (hk : ctx.sessionKey = sk) (hn : ctx.nonce = leBytes c.nonceLen (2 * i))
    (hroom : plain.length + ctx.chunk.length ≤ room) (hpos : 0 < ctx.chunk.length) :
    match decodeStep L c sk i ctx.chunk with
    | .pending =>
      decryptLoop L room ctx plain = some (if plain.length = 0 then .needMore else .ok plain, ctx)
    | .error => ∃ ctx', decryptLoop L room ctx plain = some (.error, ctx')
    | .chunk msg rest => decryptLoop L room ctx plain =
        decryptLoop L room { ctx with chunk := rest, nonce := leBytes c.nonceLen (2 * (i + 1)) }
          (plain ++ msg) := by
  have hstep := aeadChunkDecrypt_refines (L := L) hc hk (room - plain.length) i
    (R := ctx.chunk) (by omega)
  rw [← hn] at hstep
  obtain ⟨x, hx, hxs⟩ := Option.map_eq_some'.mp hstep
  rw [← hxs, decryptLoop_step hpos, hx]
  cases x with
  | needMore => rfl
  | error => exact ⟨_, rfl⟩
  | ok p r n' =>
    rw [(aeadChunkDecrypt_ok_inv L _ _ _ hx).2.2.2.2, hn, sodiumIncrement_leBytes,
      sodiumIncrement_leBytes]
    rfl

/-- From chunk `i`, with room for the buffer, the loop pops exactly the chunks the reference
decoder reads, keeps exactly what the decoder leaves pending, and ends at the nonce of the
chunk after them.  It answers `CRYPTO_NEED_MORE` only when it has nothing to hand back and
bytes are left. -/
theorem decryptLoop_refines {room : Nat} (i : Nat) (R : Bytes) :
    ∀ {ctx : CipherCtx} {plain : Bytes} {ms : List Bytes} {rest : Bytes},
      ctx.cipher = c → ctx.sessionKey = sk → ctx.chunk = R →
      ctx.nonce = leBytes c.nonceLen (2 * i) → plain.length + R.length ≤ room →
      decodeChunks L c sk i R = .pending ms rest →
      decryptLoop L room ctx plain =
        some (if plain ++ ms.flatten = [] ∧ rest ≠ [] then .needMore
            else .ok (plain ++ ms.flatten),
          { ctx with chunk := rest, nonce := leBytes c.nonceLen (2 * (i + ms.length)) }) := by
  induction i, R using decodeChunks.induct L c sk with
  | case1 i R h =>
    intro ctx plain ms rest hc hk hR hn hroom hd
    rw [decodeChunks_of_pending h] at hd
    obtain ⟨rfl, rfl⟩ := Decoded.pending.inj hd
    subst hR
    rw [List.length_nil, Nat.add_zero, ← hn, List.flatten_nil, List.append_nil]
    by_cases hnil : ctx.chunk = []
    · rw [decryptLoop_nil plain hnil, if_neg (fun h => h.2 hnil)]
    have hturn := decryptLoop_turn (L := L) hc hk hn hroom (List.length_pos.mpr hnil)
    rw [h] at hturn
    rw [hturn]
    simp [hnil, List.length_eq_zero]
  | case2 i R h =>
    intro ctx plain ms rest _ _ _ _ _ hd
    rw [decodeChunks_of_error h] at hd
    cases hd
  | case3 i R msg rest' h ih =>
    intro ctx plain ms rest hc hk hR hn hroom hd
    obtain ⟨ms', rfl, hd'⟩ := decodeChunks_chunk_pending h hd
    subst hR
    obtain ⟨hrest, hle, -⟩ := decodeStep_chunk h
    have hturn := decryptLoop_turn (L := L) hc hk hn hroom (by omega)
    rw [h] at hturn
    rw [hturn, @ih { ctx with chunk := rest', nonce := _ } (plain ++ msg) ms' rest hc hk rfl rfl
      (by rw [hrest, List.length_append, List.length_drop]; omega) hd']
    simp only [List.flatten_cons, List.append_assoc, List.length_cons, List.append_eq_nil,
      Nat.add_right_comm i 1, Nat.add_assoc]

/-- From chunk `i`, with room for the buffer, the loop answers `CRYPTO_ERROR` when the
reference decoder fails on the buffer. -/
theorem decryptLoop_error {room : Nat} (i : Nat) (R : Bytes) :
    ∀ {ctx : CipherCtx} {plain : Bytes}, ctx.cipher = c → ctx.sessionKey = sk →
      ctx.chunk = R → ctx.nonce = leBytes c.nonceLen (2 * i) → plain.length + R.length ≤ room →
      decodeChunks L c sk i R = .error → ∃ ctx', decryptLoop L room ctx plain = some (.error, ctx') := by
  induction i, R using decodeChunks.induct L c sk with
  | case1 i R h =>
    intro _ _ _ _ _ _ _ hd
    rw [decodeChunks_of_pending h] at hd
    cases hd
  | case2 i R h =>
    intro ctx plain hc hk hR hn hroom _
    subst hR
    have hturn := decryptLoop_turn (L := L) hc hk hn hroom
      (by have := decodeStep_error_length h; omega)
    rwa [h] at hturn
  | case3 i R msg rest h ih =>
    intro ctx plain hc hk hR hn hroom hd
    subst hR
    obtain ⟨hrest, hle, -⟩ := decodeStep_chunk h
    have hturn := decryptLoop_turn (L := L) hc hk hn hroom (by omega)
    rw [h] at hturn
    rw [hturn]
    exact @ih { ctx with chunk := rest, nonce := _ } (plain ++ msg) hc hk rfl rfl
      (by rw [hrest, List.length_append, List.length_drop]; omega) (decodeChunks_chunk_error h hd)

end Loop

/-- What the loop answers, `CRYPTO_NEED_MORE` or `CRYPTO_OK`, never `CRYPTO_ERROR`, hands back
the plaintext it popped. -/
theorem loop_reply_spec (p rest : Bytes) :
    (if p = [] ∧ rest ≠ [] then Reply.needMore else .ok p) ≠ .error ∧
      (if p = [] ∧ rest ≠ [] then Reply.needMore else .ok p).plaintext = p := by
  split
  · exact ⟨Reply.noConfusion, by simp_all [Reply.plaintext]⟩
  · exact ⟨Reply.noConfusion, rfl⟩

/-! ## The simulation -/

/-- The decrypt context after the bytes `F`, as the reference decoder sees `F`: it has handed
back the messages `ms`, buffers exactly what the decoder leaves pending, has taken the salt
off once more than `key_len` bytes came, and holds the nonce of the next chunk. -/
structure Tracks (L : CryptoLib) (c : Cipher) (F : Bytes) (ms : List Bytes) (ctx : CipherCtx) :
    Prop where
  decode : referenceDecode L c F = .pending ms ctx.chunk
  cipher : ctx.cipher = c
  init : ctx.init = decide (c.keyLen < F.length)
  key : c.keyLen < F.length → ctx.sessionKey = deriveSubkey L c (F.take c.keyLen)
  nonce : ctx.nonce = leBytes c.nonceLen (2 * ms.length)

theorem tracks_fresh (L : CryptoLib) (c : Cipher) : Tracks L c [] [] (aeadCtxInit c false []) where
  decode := by simp [referenceDecode]
  cipher := rfl
  init := by simp
  key h := absurd h (Nat.not_lt_zero _)
  nonce := aeadCtxInit_nonce c false []

section Step

variable {L : CryptoLib} {c : Cipher} {moduleRemote : Bool} {g : Sbf}

section Phase

variable {F : Bytes} {ms : List Bytes} {ctx : CipherCtx}

/-- Before the salt is taken, nothing has been read and the buffer holds all that came. -/
theorem Tracks.waiting (ht : Tracks L c F ms ctx) (h : ctx.init = false) :
    F.length ≤ c.keyLen ∧ ms = [] ∧ ctx.chunk = F := by
  have hF : F.length ≤ c.keyLen := by simpa [h] using ht.init
  obtain ⟨rfl, hchunk⟩ := Decoded.pending.inj (referenceDecode_short L c hF ▸ ht.decode)
  exact ⟨hF, rfl, hchunk.symm⟩

theorem Tracks.salted (ht : Tracks L c F ms ctx) (h : ctx.init = true) : c.keyLen < F.length := by
  simpa [h] using ht.init.symm

end Phase

/-- What a call does once the salt is complete, unless the filter holds the salt it completes:
it runs the loop from the next chunk's nonce under the salt's subkey, on a buffer over which
the reference decoder, resumed, gives its verdict on all that has been fed. -/
theorem aeadDecrypt_loop {F : Bytes} {ms : List Bytes} {ctx : CipherCtx}
    (ht : Tracks L c F ms ctx) (X : Bytes) (hlong : c.keyLen < (F ++ X).length)
    (hg : ctx.init = false → moduleRemote = true → (F ++ X).take c.keyLen ∉ g) :
    ∃ (ctx₀ : CipherCtx) (room : Nat), ctx₀.chunk.length ≤ room ∧ ctx₀.cipher = c ∧
      ctx₀.init = true ∧ ctx₀.sessionKey = deriveSubkey L c ((F ++ X).take c.keyLen) ∧
      ctx₀.nonce = leBytes c.nonceLen (2 * ms.length) ∧
      referenceDecode L c (F ++ X) =
        (decodeChunks L c (deriveSubkey L c ((F ++ X).take c.keyLen)) ms.length
          ctx₀.chunk).prepend ms ∧
      aeadDecrypt L moduleRemote g ctx X = (decryptLoop L room ctx₀ []).map fun rc =>
        (rc.1, rc.2, if moduleRemote = true ∧ F.length ≤ c.keyLen ∧ c.keyLen < (F ++ X).length
          then fsSbfAdd g ((F ++ X).take c.keyLen) else g) := by
  have hc := ht.cipher
  subst hc
  cases hinit : ctx.init
  case false =>
    obtain ⟨hF, rfl, rfl⟩ := ht.waiting hinit
    have hguard : (moduleRemote && fsSbfCheck g ((ctx.chunk ++ X).take ctx.cipher.keyLen)) =
        false := by
      cases moduleRemote
      · rfl
      · simp [fsSbfCheck, hg hinit rfl]
    refine ⟨saltTaken L ctx (ctx.chunk ++ X), (ctx.chunk ++ X).length, by simp, rfl, rfl,
      saltTaken_sessionKey L _ _, saltTaken_nonce L _ _, ?_, ?_⟩
    · rw [referenceDecode, if_neg (Nat.not_le.mpr hlong), Decoded.prepend_nil]
      rfl
    · rw [aeadDecrypt_salt L moduleRemote g X hinit hlong, hguard, if_neg Bool.false_ne_true]
      simp only [hF, hlong, true_and, and_true]
  case true =>
    have hF := ht.salted hinit
    have hres := referenceDecode_append L ctx.cipher X hF
    rw [ht.decode] at hres
    refine ⟨{ ctx with chunk := ctx.chunk ++ X }, _, le_rfl, rfl, hinit, ?_, ht.nonce, ?_, ?_⟩
    · rw [List.take_append_of_le_length hF.le]
      exact ht.key hF
    · rw [hres, List.take_append_of_le_length hF.le]
    · rw [aeadDecrypt_init L moduleRemote g X hinit,
        if_neg (fun h => absurd h.2.1 (Nat.not_le.mpr hF))]

/-- A server's call that completes a salt its filter holds answers `CRYPTO_ERROR` and leaves
the filter as it was. -/
theorem aeadDecrypt_replayed {F : Bytes} {ms : List Bytes} {ctx : CipherCtx}
    (ht : Tracks L c F ms ctx) (X : Bytes) (hinit : ctx.init = false)
    (hlong : c.keyLen < (F ++ X).length) (hmem : (F ++ X).take c.keyLen ∈ g) :
    ∃ ctx', aeadDecrypt L true g ctx X = some (.error, ctx', g) := by
  obtain ⟨-, -, rfl⟩ := ht.waiting hinit
  rw [← ht.cipher] at hlong hmem
  rw [aeadDecrypt_salt L true g X hinit hlong, if_pos (by simpa [fsSbfCheck] using hmem)]
  exact ⟨_, rfl⟩

/-- One call keeps the simulation, as long as the reference decoder does not fail on what
has been fed, and a server's filter has not seen the salt the call may complete.  The call
answers `CRYPTO_NEED_MORE` or hands back the messages the decoder reads from the new bytes,
and the filter gains the salt exactly at the call that completes it. -/
theorem aeadDecrypt_tracks {F : Bytes} {ms : List Bytes} {ctx : CipherCtx}
    (ht : Tracks L c F ms ctx) (X : Bytes)
    (hg : ctx.init = false → moduleRemote = true → c.keyLen < (F ++ X).length →
      (F ++ X).take c.keyLen ∉ g)
    (hok : referenceDecode L c (F ++ X) ≠ .error) :
    ∃ r ctx' ms', aeadDecrypt L moduleRemote g ctx X =
        some (r, ctx', if moduleRemote = true ∧ F.length ≤ c.keyLen ∧ c.keyLen < (F ++ X).length
          then fsSbfAdd g ((F ++ X).take c.keyLen) else g) ∧
      r ≠ .error ∧ r.plaintext = ms'.flatten ∧ Tracks L c (F ++ X) (ms ++ ms') ctx' := by
  by_cases hs : c.keyLen < (F ++ X).length
  case neg =>
    -- the salt is still incomplete: the call buffers the bytes and waits
    have hinit : ctx.init = false := by
      rw [ht.init, decide_eq_false_iff_not]
      simp only [List.length_append] at hs
      omega
    obtain ⟨-, rfl, rfl⟩ := ht.waiting hinit
    have hwait : (ctx.chunk ++ X).length ≤ ctx.cipher.keyLen := by rw [ht.cipher]; omega
    rw [aeadDecrypt_wait L moduleRemote g X hinit hwait, if_neg (fun h => hs h.2.2)]
    exact ⟨_, _, [], rfl, Reply.noConfusion, rfl,
      ⟨by rw [referenceDecode_short L _ (Nat.not_lt.mp hs)]; rfl, ht.cipher,
        by simpa [hinit] using hs, fun h => absurd h hs, ht.nonce⟩⟩
  obtain ⟨ctx₀, room, hroom, hc₀, hi₀, hk₀, hn₀, hdec, hcall⟩ :=
    aeadDecrypt_loop ht X hs fun hi hm => hg hi hm hs
  cases hd : decodeChunks L c (deriveSubkey L c ((F ++ X).take c.keyLen)) ms.length ctx₀.chunk with
  | error => rw [hdec, hd] at hok; exact absurd rfl hok
  | pending ms₂ rest =>
    rw [hcall, @decryptLoop_refines L c _ room ms.length _ ctx₀ [] ms₂ rest hc₀ hk₀ rfl hn₀
      (by simpa using hroom) hd, Option.map_some']
    exact ⟨_, _, ms₂, rfl, (loop_reply_spec _ _).1, (loop_reply_spec _ _).2,
      ⟨by rw [hdec, hd]; rfl, hc₀, by rw [hi₀]; exact (decide_eq_true hs).symm, fun _ => hk₀,
        by simp⟩⟩

/-- A call answers `CRYPTO_ERROR` once the reference decoder fails on what has been fed: the
filter's verdict on a new salt or the loop's on the buffer. -/
theorem aeadDecrypt_tracks_error {F : Bytes} {ms : List Bytes} {ctx : CipherCtx}
    (ht : Tracks L c F ms ctx) (X : Bytes) (herr : referenceDecode L c (F ++ X) = .error) :
    ∃ ctx' g', aeadDecrypt L moduleRemote g ctx X = some (.error, ctx', g') := by
  have hs : c.keyLen < (F ++ X).length := by
    by_contra hs
    rw [referenceDecode_short L c (Nat.not_lt.mp hs)] at herr
    cases herr
  by_cases hg : ctx.init = false → moduleRemote = true → (F ++ X).take c.keyLen ∉ g
  · obtain ⟨ctx₀, room, hroom, hc₀, -, hk₀, hn₀, hdec, hcall⟩ := aeadDecrypt_loop ht X hs hg
    rw [herr] at hdec
    cases hd : decodeChunks L c (deriveSubkey L c ((F ++ X).take c.keyLen)) ms.length ctx₀.chunk with
    | pending => rw [hd] at hdec; cases hdec
    | error =>
      obtain ⟨ctx', hloop⟩ := @decryptLoop_error L c _ room ms.length _ ctx₀ [] hc₀ hk₀ rfl hn₀
        (by simpa using hroom) hd
      rw [hcall, hloop]
      exact ⟨_, _, rfl⟩
  · simp only [not_forall, not_not] at hg
    obtain ⟨hinit, rfl, hmem⟩ := hg
    obtain ⟨ctx', h⟩ := aeadDecrypt_replayed ht X hinit hs hmem
    exact ⟨ctx', g, h⟩

/-- A run of calls keeps the simulation, as long as the reference decoder does not fail on
all that is fed and a server's filter has not seen the salt. -/
theorem decryptRun_tracks : ∀ (segs : List Bytes) {F : Bytes} {ms : List Bytes}
    {ctx : CipherCtx} {g : Sbf}, Tracks L c F ms ctx →
    (ctx.init = false → moduleRemote = true → c.keyLen < (F ++ segs.flatten).length →
      (F ++ segs.flatten).take c.keyLen ∉ g) →
    referenceDecode L c (F ++ segs.flatten) ≠ .error →
    ∃ rs ctx' g' ms', decryptRun L moduleRemote g ctx segs = some (rs, ctx', g') ∧
      .error ∉ rs ∧ (rs.map Reply.plaintext).flatten = ms'.flatten ∧
      Tracks L c (F ++ segs.flatten) (ms ++ ms') ctx'
  | [], F, ms, ctx, g, ht, _, _ => ⟨[], ctx, g, [], rfl, by simp, rfl, by simpa using ht⟩
  | seg :: segs, F, ms, ctx, g, ht, hg, hok => by
    rw [List.flatten_cons, ← List.append_assoc] at hg hok ⊢
    obtain ⟨r, ctx₁, ms₁, hcall, hr, hplain, ht₁⟩ := aeadDecrypt_tracks ht seg
      (fun hi hm hlt => by
        have := hg hi hm (by simp only [List.length_append] at hlt ⊢; omega)
        rwa [List.take_append_of_le_length hlt.le] at this)
      (fun h => hok (referenceDecode_error_append L c _ h))
    have hg₁ : ctx₁.init = false → moduleRemote = true →
        c.keyLen < (F ++ seg ++ segs.flatten).length →
        (F ++ seg ++ segs.flatten).take c.keyLen ∉
          (if moduleRemote = true ∧ F.length ≤ c.keyLen ∧ c.keyLen < (F ++ seg).length
            then fsSbfAdd g ((F ++ seg).take c.keyLen) else g) := by
      intro hi hm hlt
      have hshort : ¬c.keyLen < (F ++ seg).length := by simpa [ht₁.init] using hi
      rw [if_neg (fun h => hshort h.2.2)]
      exact hg (by rw [ht.init]; simp only [List.length_append] at hshort; simp; omega) hm hlt
    obtain ⟨rs, ctx', g', ms', hrun, hrs, hplain', ht'⟩ := decryptRun_tracks segs ht₁ hg₁ hok
    refine ⟨r :: rs, ctx', g', ms₁ ++ ms', ?_, ?_, ?_, by simpa using ht'⟩
    · rw [decryptRun]
      simp only [hcall, hrun, Option.bind_eq_bind, Option.some_bind, Option.pure_def]
    · exact List.not_mem_cons_of_ne_of_not_mem (Ne.symm hr) hrs
    · simp [hplain, hplain']

/-- Whatever a call answers, it is `CRYPTO_ERROR` or it keeps the simulation: a salt the
filter has seen, and bytes on which the reference decoder fails, are answered with
`CRYPTO_ERROR`. -/
theorem aeadDecrypt_error_or_tracks {F : Bytes} {ms : List Bytes} {ctx : CipherCtx}
    (ht : Tracks L c F ms ctx) (X : Bytes) {r : Reply} {ctx' : CipherCtx} {g' : Sbf}
    (hcall : aeadDecrypt L moduleRemote g ctx X = some (r, ctx', g')) :
    r = .error ∨ ∃ ms', r.plaintext = ms'.flatten ∧ Tracks L c (F ++ X) (ms ++ ms') ctx' := by
  by_cases herr : referenceDecode L c (F ++ X) = .error
  · obtain ⟨_, _, h⟩ : ∃ ctx' g', aeadDecrypt L moduleRemote g ctx X = some (.error, ctx', g') :=
      aeadDecrypt_tracks_error ht X herr
    rw [hcall] at h
    exact .inl (Prod.mk.inj (Option.some.inj h)).1
  by_cases hg : ctx.init = false → moduleRemote = true → c.keyLen < (F ++ X).length →
      (F ++ X).take c.keyLen ∉ g
  · obtain ⟨r', ctx'', ms', h, -, hplain, ht'⟩ := aeadDecrypt_tracks ht X hg herr
    rw [hcall, Option.some.injEq, Prod.mk.injEq] at h
    obtain ⟨rfl, rfl, -⟩ := h
    exact .inr ⟨ms', hplain, ht'⟩
  -- the filter has seen the salt this call completes
  simp only [not_forall, not_not] at hg
  obtain ⟨hinit, rfl, hlt, hmem⟩ := hg
  obtain ⟨_, h⟩ := aeadDecrypt_replayed ht X hinit hlt hmem
  rw [hcall] at h
  exact .inl (Prod.mk.inj (Option.some.inj h)).1

/-- A run of calls answers `CRYPTO_ERROR` at some call, or keeps the simulation over all it
is fed. -/
theorem decryptRun_error_or_tracks : ∀ (segs : List Bytes) {F : Bytes} {ms : List Bytes}
    {ctx : CipherCtx} {g : Sbf} {rs : List Reply} {ctx' : CipherCtx} {g' : Sbf},
    Tracks L c F ms ctx → decryptRun L moduleRemote g ctx segs = some (rs, ctx', g') →
    .error ∈ rs ∨ ∃ ms', (rs.map Reply.plaintext).flatten = ms'.flatten ∧
      Tracks L c (F ++ segs.flatten) (ms ++ ms') ctx'
  | [], _, _, _, _, _, _, _, ht, hrun => by
    cases hrun
    exact .inr ⟨[], rfl, by simpa using ht⟩
  | seg :: segs, _, _, _, _, _, _, _, ht, hrun => by
    obtain ⟨r, ctx₁, g₁, rs₁, hcall, hrest, rfl⟩ := decryptRun_cons_inv hrun
    obtain rfl | ⟨ms₁, hplain, ht₁⟩ := aeadDecrypt_error_or_tracks ht seg hcall
    · exact .inl (List.mem_cons_self _ _)
    obtain h | ⟨ms', hplain', ht'⟩ := decryptRun_error_or_tracks segs ht₁ hrest
    · exact .inl (List.mem_cons_of_mem _ h)
    · exact .inr ⟨ms₁ ++ ms', by simp [hplain, hplain'], by simpa using ht'⟩

/-- From a fresh context, any run is defined, and one that answers no `CRYPTO_ERROR` keeps the
simulation over all it is fed. -/
theorem decryptRun_fresh_tracks (segs : List Bytes) :
    ∃ rs ctx g', decryptRun L moduleRemote g (aeadCtxInit c false []) segs = some (rs, ctx, g') ∧
      (.error ∉ rs → ∃ ms, (rs.map Reply.plaintext).flatten = ms.flatten ∧
        Tracks L c segs.flatten ms ctx) := by
  obtain ⟨⟨rs, ctx, g'⟩, hrun⟩ :=
    Option.isSome_iff_exists.mp (decryptRun_isSome L moduleRemote g (aeadCtxInit c false []) segs)
  refine ⟨rs, ctx, g', hrun, fun hrs => ?_⟩
  obtain h | ⟨ms, hplain, ht⟩ := decryptRun_error_or_tracks segs (tracks_fresh L c) hrun
  · exact absurd h hrs
  exact ⟨ms, hplain, by simpa using ht⟩

end Step

/-! ## The refinement -/

/-- The incremental decrypter refines the reference decoder.  Cut any byte string on which
the reference decoder does not fail into any segments, and feed the first `t` of them to a
fresh client-side decrypt context.  No call returns `CRYPTO_ERROR`; the plaintexts returned
concatenate to the messages `m_0, …, m_(j-1)` the reference decoder reads from the bytes fed;
the nonce is `LE(2j)`; and the reassembly buffer holds exactly the bytes the decoder leaves
pending (all of them while the salt is incomplete). -/
theorem tcp_decrypt_refines_reference (L : CryptoLib) (c : Cipher) (g : Sbf)
    (segs : List Bytes) (hS : referenceDecode L c segs.flatten ≠ .error) (t : Nat) :
    ∃ rs ctx g' ms, decryptRun L false g (aeadCtxInit c false []) (segs.take t) =
        some (rs, ctx, g') ∧
      .error ∉ rs ∧ (rs.map Reply.plaintext).flatten = ms.flatten ∧
      referenceDecode L c (segs.take t).flatten = .pending ms ctx.chunk ∧
      ctx.nonce = leBytes c.nonceLen (2 * ms.length) := by
  have hpre : referenceDecode L c (segs.take t).flatten ≠ .error := fun h => hS (by
    rw [← List.take_append_drop t segs, List.flatten_append]
    exact referenceDecode_error_append L c _ h)
  obtain ⟨rs, ctx, g', ms, hrun, hrs, hplain, ht⟩ :=
    @decryptRun_tracks L c false (segs.take t) [] [] _ g (tracks_fresh L c)
      (fun _ h => absurd h Bool.false_ne_true) (by simpa using hpre)
  exact ⟨rs, ctx, g', ms, hrun, hrs, hplain, by simpa using ht.decode, by simpa using ht.nonce⟩

/-- A `chacha20-poly1305` stream of one chunk holding the byte `7`, keyed from the password
`pw`, over the transparent library, cut inside the length block. -/
theorem tcp_decrypt_refines_reference_split :
    referenceDecode CryptoLib.plain (aeadKeyInit CryptoLib.plain .chacha20poly1305 [112, 119])
        [List.replicate 33 0, 1 :: List.replicate 16 0 ++ 7 :: List.replicate 16 0].flatten ≠
      .error ∧
    ∃ rs ctx g' ms, decryptRun CryptoLib.plain false [] (aeadCtxInit (aeadKeyInit CryptoLib.plain .chacha20poly1305 [112, 119]) false [])
        ([List.replicate 33 0, 1 :: List.replicate 16 0 ++ 7 :: List.replicate 16 0].take 2) =
        some (rs, ctx, g') ∧
      .error ∉ rs ∧ (rs.map Reply.plaintext).flatten = ms.flatten ∧
      referenceDecode CryptoLib.plain (aeadKeyInit CryptoLib.plain .chacha20poly1305 [112, 119])
        ([List.replicate 33 0, 1 :: List.replicate 16 0 ++ 7 :: List.replicate 16 0].take 2).flatten =
        .pending ms ctx.chunk ∧
      ctx.nonce = leBytes (Cipher.nonceLen (aeadKeyInit CryptoLib.plain .chacha20poly1305 [112, 119])) (2 * ms.length) := by
  have h0 : decodeStep CryptoLib.plain (aeadKeyInit CryptoLib.plain .chacha20poly1305 [112, 119])
      (deriveSubkey CryptoLib.plain (aeadKeyInit CryptoLib.plain .chacha20poly1305 [112, 119])
        ([List.replicate 33 0, 1 :: List.replicate 16 0 ++ 7 :: List.replicate 16 0].flatten.take
          (Cipher.keyLen (aeadKeyInit CryptoLib.plain .chacha20poly1305 [112, 119])))) 0
      ([List.replicate 33 0, 1 :: List.replicate 16 0 ++ 7 :: List.replicate 16 0].flatten.drop
        (Cipher.keyLen (aeadKeyInit CryptoLib.plain .chacha20poly1305 [112, 119]))) = .chunk [7] [] := rfl
  have hS : referenceDecode CryptoLib.plain (aeadKeyInit CryptoLib.plain .chacha20poly1305 [112, 119])
      [List.replicate 33 0, 1 :: List.replicate 16 0 ++ 7 :: List.replicate 16 0].flatten ≠
        .error := by
    rw [referenceDecode, if_neg (by decide), decodeChunks_of_chunk h0, decodeChunks_nil]
    simp
  exact ⟨hS, tcp_decrypt_refines_reference _ _ [] _ hS 2⟩

/-- The decrypter reports a failure exactly where the reference decoder first fails.  If the
decoder does not fail on the first `t` segments and fails once segment `t` is added, the calls
on the first `t` segments return no `CRYPTO_ERROR` and the call on segment `t` returns it. -/
theorem tcp_decrypt_reports_failure (L : CryptoLib) (c : Cipher) (g : Sbf) (segs : List Bytes)
    (t : Nat) (hok : referenceDecode L c (segs.take t).flatten ≠ .error)
    (herr : referenceDecode L c (segs.take (t + 1)).flatten = .error) :
    ∃ rs ctx g', decryptRun L false g (aeadCtxInit c false []) (segs.take (t + 1)) =
      some (rs ++ [.error], ctx, g') ∧ .error ∉ rs := by
  rw [List.take_succ] at herr ⊢
  cases hx : segs[t]? with
  | none => rw [hx, Option.toList_none, List.append_nil] at herr; exact absurd herr hok
  | some X =>
    rw [hx, Option.toList_some, List.flatten_append, List.flatten_singleton] at herr
    rw [Option.toList_some]
    obtain ⟨rs, ctx, g', ms, hrun, hrs, -, ht⟩ :=
      @decryptRun_tracks L c false (segs.take t) [] [] _ g (tracks_fresh L c)
        (fun _ h => absurd h Bool.false_ne_true) (by simpa using hok)
    rw [List.nil_append] at ht
    obtain ⟨ctx', g'', hcall⟩ : ∃ ctx' g'', aeadDecrypt L false g' ctx X = some (.error, ctx', g'') :=
      aeadDecrypt_tracks_error ht X herr
    exact ⟨rs, ctx', g'', decryptRun_snoc L false X hrun hcall, hrs⟩

/-- A `chacha20-poly1305` stream whose first chunk announces length `0`, keyed from the
password `pw`, over the transparent library: the salt comes whole in the first segment, and the call on the second reports it. -/
theorem tcp_decrypt_reports_failure_zero_length :
    referenceDecode CryptoLib.plain (aeadKeyInit CryptoLib.plain .chacha20poly1305 [112, 119])
        ([List.replicate 32 0, List.replicate 35 0].take 1).flatten ≠ .error ∧
    referenceDecode CryptoLib.plain (aeadKeyInit CryptoLib.plain .chacha20poly1305 [112, 119])
        ([List.replicate 32 0, List.replicate 35 0].take (1 + 1)).flatten = .error ∧
    ∃ rs ctx g', decryptRun CryptoLib.plain false [] (aeadCtxInit (aeadKeyInit CryptoLib.plain .chacha20poly1305 [112, 119]) false [])
        ([List.replicate 32 0, List.replicate 35 0].take (1 + 1)) =
        some (rs ++ [.error], ctx, g') ∧ .error ∉ rs := by
  have hok : referenceDecode CryptoLib.plain (aeadKeyInit CryptoLib.plain .chacha20poly1305 [112, 119])
      ([List.replicate 32 0, List.replicate 35 0].take 1).flatten ≠ .error := by
    rw [referenceDecode_short _ _ (by decide)]
    exact Decoded.noConfusion
  have h0 : decodeStep CryptoLib.plain (aeadKeyInit CryptoLib.plain .chacha20poly1305 [112, 119])
      (deriveSubkey CryptoLib.plain (aeadKeyInit CryptoLib.plain .chacha20poly1305 [112, 119])
        (([List.replicate 32 0, List.replicate 35 0].take (1 + 1)).flatten.take
          (Cipher.keyLen (aeadKeyInit CryptoLib.plain .chacha20poly1305 [112, 119])))) 0
      (([List.replicate 32 0, List.replicate 35 0].take (1 + 1)).flatten.drop
        (Cipher.keyLen (aeadKeyInit CryptoLib.plain .chacha20poly1305 [112, 119]))) = .error := rfl
  have herr : referenceDecode CryptoLib.plain (aeadKeyInit CryptoLib.plain .chacha20poly1305 [112, 119])
      ([List.replicate 32 0, List.replicate 35 0].take (1 + 1)).flatten = .error := by
    rw [referenceDecode, if_neg (by decide), decodeChunks_of_error h0]
  exact ⟨hok, herr, tcp_decrypt_reports_failure _ _ [] _ 1 hok herr⟩

/-- A client's run answers `CRYPTO_ERROR` at some call exactly when the reference decoder
fails on all it was fed. -/
theorem decryptRun_error_iff (L : CryptoLib) (c : Cipher) (g : Sbf) {segs : List Bytes}
    {rs : List Reply} {ctx : CipherCtx} {g' : Sbf}
    (hrun : decryptRun L false g (aeadCtxInit c false []) segs = some (rs, ctx, g')) :
    .error ∈ rs ↔ referenceDecode L c segs.flatten = .error := by
  constructor
  · intro herr
    by_contra hok
    obtain ⟨rs', _, _, _, hrun', hrs', -⟩ := @decryptRun_tracks L c false segs [] [] _ g
      (tracks_fresh L c) (fun _ h => absurd h Bool.false_ne_true) (by simpa using hok)
    rw [hrun, Option.some.injEq, Prod.mk.injEq] at hrun'
    exact hrs' (hrun'.1 ▸ herr)
  · intro hdec
    rcases decryptRun_error_or_tracks segs (tracks_fresh L c) hrun with h | ⟨ms, -, ht⟩
    · exact h
    · have h' := ht.decode
      rw [List.nil_append, hdec] at h'
      cases h'

/-- Segmentation does not matter to a client.  Feed the same bytes, cut two ways, to two fresh
decrypt contexts: either both runs answer `CRYPTO_ERROR` at some call or neither does, and then
they hand back the same plaintext and end in the same phase, with the same buffer and the same
nonce. -/
theorem tcp_decrypt_segmentation_invariant (L : CryptoLib) (c : Cipher) (g : Sbf)
    (segs₁ segs₂ : List Bytes) (h : segs₁.flatten = segs₂.flatten) :
    ∃ rs₁ ctx₁ g₁ rs₂ ctx₂ g₂,
      decryptRun L false g (aeadCtxInit c false []) segs₁ = some (rs₁, ctx₁, g₁) ∧
      decryptRun L false g (aeadCtxInit c false []) segs₂ = some (rs₂, ctx₂, g₂) ∧
      (.error ∈ rs₁ ↔ .error ∈ rs₂) ∧
      (.error ∉ rs₁ → (rs₁.map Reply.plaintext).flatten = (rs₂.map Reply.plaintext).flatten ∧
        ctx₁.init = ctx₂.init ∧ ctx₁.chunk = ctx₂.chunk ∧ ctx₁.nonce = ctx₂.nonce) := by
  obtain ⟨rs₁, ctx₁, g₁, hrun₁, hacc₁⟩ := @decryptRun_fresh_tracks L c false g segs₁
  obtain ⟨rs₂, ctx₂, g₂, hrun₂, hacc₂⟩ := @decryptRun_fresh_tracks L c false g segs₂
  have hiff : .error ∈ rs₁ ↔ .error ∈ rs₂ := by
    rw [decryptRun_error_iff L c g hrun₁, decryptRun_error_iff L c g hrun₂, h]
  refine ⟨rs₁, ctx₁, g₁, rs₂, ctx₂, g₂, hrun₁, hrun₂, hiff, fun hrs₁ => ?_⟩
  obtain ⟨ms₁, hp₁, ht₁⟩ := hacc₁ hrs₁
  obtain ⟨ms₂, hp₂, ht₂⟩ := hacc₂ fun h₂ => hrs₁ (hiff.mpr h₂)
  have hdec := ht₂.decode
  rw [← h, ht₁.decode] at hdec
  obtain ⟨rfl, hchunk⟩ := Decoded.pending.inj hdec
  exact ⟨by rw [hp₁, hp₂], by rw [ht₁.init, ht₂.init, h], hchunk, by rw [ht₁.nonce, ht₂.nonce]⟩

/-- A `chacha20-poly1305` stream of one chunk holding the byte `7`, keyed from the password
`pw`, over the transparent library, fed whole and fed cut inside the length block. -/
theorem tcp_decrypt_segmentation_invariant_split :
    [List.replicate 33 0 ++ 1 :: List.replicate 16 0 ++ 7 :: List.replicate 16 0].flatten =
      ([List.replicate 33 0, 1 :: List.replicate 16 0 ++ 7 :: List.replicate 16 0] : List Bytes).flatten ∧
    ∃ rs₁ ctx₁ g₁ rs₂ ctx₂ g₂,
      decryptRun CryptoLib.plain false [] (aeadCtxInit (aeadKeyInit CryptoLib.plain .chacha20poly1305 [112, 119]) false [])
          [List.replicate 33 0 ++ 1 :: List.replicate 16 0 ++ 7 :: List.replicate 16 0] =
        some (rs₁, ctx₁, g₁) ∧
      decryptRun CryptoLib.plain false [] (aeadCtxInit (aeadKeyInit CryptoLib.plain .chacha20poly1305 [112, 119]) false [])
          [List.replicate 33 0, 1 :: List.replicate 16 0 ++ 7 :: List.replicate 16 0] =
        some (rs₂, ctx₂, g₂) ∧
      (.error ∈ rs₁ ↔ .error ∈ rs₂) ∧
      (.error ∉ rs₁ → (rs₁.map Reply.plaintext).flatten = (rs₂.map Reply.plaintext).flatten ∧
        ctx₁.init = ctx₂.init ∧ ctx₁.chunk = ctx₂.chunk ∧ ctx₁.nonce = ctx₂.nonce) :=
  have h : [List.replicate 33 0 ++ 1 :: List.replicate 16 0 ++ 7 :: List.replicate 16 0].flatten =
      ([List.replicate 33 0, 1 :: List.replicate 16 0 ++ 7 :: List.replicate 16 0] :
        List Bytes).flatten := by
    simp
  ⟨h, tcp_decrypt_segmentation_invariant _ _ [] _ _ h⟩

end ShadowAead

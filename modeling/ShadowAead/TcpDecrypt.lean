import ShadowAead.TcpEncrypt
/-
# `ShadowAead.TcpDecrypt` — the receiving half of the stream codec

`aead_decrypt` appends what it is given to the context's reassembly buffer.  The first
time more than `key_len` bytes are buffered it takes the salt off, derives the subkey and,
in a server build, consults and feeds the replay filter.  Then it pops whole chunks.

`aead_chunk_decrypt` pops one chunk: it opens the length block under the current nonce,
checks the length, and if the whole chunk is not there yet returns `CRYPTO_NEED_MORE`
*without* advancing the nonce, so the next call opens the same length block again.  Only
a chunk that is wholly present advances the nonce, by two.

The loop writes each chunk's plaintext into the scratch buffer `tmp` at offset `plen`;
`tmp` was sized to the reassembly length `L0` on entry, which is `room` below, and the
write is checked against it.  The loop is a function by well-founded recursion on the
buffered length: every chunk popped is at least `2 + 2 * tag_len + 1` bytes
(`aeadChunkDecrypt_ok_length`).
-/

namespace ShadowAead

/-- The return code of `aead_chunk_decrypt`, with what it writes back through `p`, `c`
and `n`: a plaintext, the bytes left in the buffer, and the nonce. -/
inductive ChunkDecrypt where
  | ok (plain rest nonce : Bytes)
  | needMore
  | error (nonce : Bytes)

/-- `aead_chunk_decrypt(ctx, p, c, n, &plen, &clen)`, with `room` the bytes available at
`p`. -/
def aeadChunkDecrypt (L : CryptoLib) (ctx : CipherCtx) (room : Nat) (c n : Bytes) :
    Option ChunkDecrypt := do
  let tlen := ctx.cipher.tagLen
  if c.length ≤ 2 * tlen + chunkSizeLen then return .needMore
  let lenCt ← bufSlice c 0 (chunkSizeLen + tlen)
  let some lenBuf ← aeadCipherDecrypt L ctx lenCt n ctx.subkey | return .error n
  cCheck (lenBuf.length = chunkSizeLen)
  let mlen := ntohs lenBuf
  if mlen > chunkSizeMask then return .error n
  if mlen = 0 then return .error n
  let chunkLen := 2 * tlen + chunkSizeLen + mlen
  if c.length < chunkLen then return .needMore
  let n₁ := sodiumIncrement n
  let ct ← bufSlice c (chunkSizeLen + tlen) (mlen + tlen)
  cCheck (mlen ≤ room)
  let some p ← aeadCipherDecrypt L ctx ct n₁ ctx.subkey | return .error n₁
  cCheck (p.length = mlen)
  let _ ← sizeSub c.length chunkLen
  return .ok p (c.drop chunkLen) (sodiumIncrement n₁)

/-! ## One chunk -/

section Chunk

variable (L : CryptoLib) (ctx : CipherCtx) (room : Nat) {c : Bytes} (n : Bytes)

theorem aeadChunkDecrypt_short (hc : c.length ≤ 2 * ctx.cipher.tagLen + chunkSizeLen) :
    aeadChunkDecrypt L ctx room c n = some .needMore := by
  simp [aeadChunkDecrypt, hc]

/-- Once the length block is buffered: open it; refuse a length that fails authentication,
is zero or exceeds the mask; wait for the rest of the chunk; then open the payload under
the next nonce.  The one failure is a payload that would not fit in `room`. -/
theorem aeadChunkDecrypt_eq (hc : 2 * ctx.cipher.tagLen + chunkSizeLen < c.length) :
    aeadChunkDecrypt L ctx room c n =
      match L.authDecrypt ctx.cipher.method ctx.sessionKey n
          (c.take (chunkSizeLen + ctx.cipher.tagLen)) with
      | none => some (.error n)
      | some lenBuf =>
        if chunkSizeMask < ntohs lenBuf ∨ ntohs lenBuf = 0 then some (.error n)
        else if c.length < 2 * ctx.cipher.tagLen + chunkSizeLen + ntohs lenBuf then
          some .needMore
        else if room < ntohs lenBuf then none
        else match L.authDecrypt ctx.cipher.method ctx.sessionKey (sodiumIncrement n)
            ((c.drop (chunkSizeLen + ctx.cipher.tagLen)).take
              (ntohs lenBuf + ctx.cipher.tagLen)) with
          | none => some (.error (sodiumIncrement n))
          | some p => some (.ok p (c.drop (2 * ctx.cipher.tagLen + chunkSizeLen + ntohs lenBuf))
              (sodiumIncrement (sodiumIncrement n))) := by
  have hlen : ctx.cipher.tagLen ≤ (c.take (chunkSizeLen + ctx.cipher.tagLen)).length := by
    simp only [List.length_take]; omega
  simp only [aeadChunkDecrypt, Nat.not_le.mpr hc, if_false, List.drop_zero,
    bufSlice_of_le (by omega : 0 + (chunkSizeLen + ctx.cipher.tagLen) ≤ c.length),
    Option.bind_eq_bind, Option.some_bind, pure_bind, Option.pure_def,
    aeadCipherDecrypt_of_le L ctx n _ hlen, CipherCtx.sessionKey]
  cases hd : L.authDecrypt ctx.cipher.method (aeadCipherKey ctx ctx.subkey) n
      (c.take (chunkSizeLen + ctx.cipher.tagLen)) with
  | none => rfl
  | some lenBuf =>
    have h2 : lenBuf.length = chunkSizeLen := by
      have := authDecrypt_length_tagLen hd
      simp only [List.length_take] at this
      omega
    simp only [cCheck_of h2, Option.some_bind, gt_iff_lt]
    by_cases hbad : chunkSizeMask < ntohs lenBuf ∨ ntohs lenBuf = 0
    · rcases hbad with h | h <;> simp [h]
    rw [if_neg hbad, if_neg (fun h => hbad (.inl h)), if_neg (fun h => hbad (.inr h))]
    by_cases hshort : c.length < 2 * ctx.cipher.tagLen + chunkSizeLen + ntohs lenBuf
    · simp [hshort]
    have hslice := bufSlice_of_le (by omega : chunkSizeLen + ctx.cipher.tagLen +
      (ntohs lenBuf + ctx.cipher.tagLen) ≤ c.length)
    rw [if_neg hshort, if_neg hshort]
    by_cases hroom : room < ntohs lenBuf
    · simp [hslice, cCheck, Nat.not_le.mpr hroom, hroom]
    rw [if_neg hroom]
    have hlen' : ctx.cipher.tagLen ≤ ((c.drop (chunkSizeLen + ctx.cipher.tagLen)).take
        (ntohs lenBuf + ctx.cipher.tagLen)).length := by
      simp only [List.length_take, List.length_drop]; omega
    simp only [hslice, cCheck_of (Nat.not_lt.mp hroom), Option.some_bind,
      aeadCipherDecrypt_of_le L ctx _ _ hlen']
    cases hp : L.authDecrypt ctx.cipher.method (aeadCipherKey ctx ctx.subkey) (sodiumIncrement n)
        ((c.drop (chunkSizeLen + ctx.cipher.tagLen)).take (ntohs lenBuf + ctx.cipher.tagLen)) with
    | none => rfl
    | some p =>
      have hpl : p.length = ntohs lenBuf := by
        have := authDecrypt_length_tagLen hp
        simp only [List.length_take, List.length_drop] at this
        omega
      simp [cCheck_of hpl, sizeSub_of_le (Nat.not_lt.mp hshort)]

/-- What a popped chunk is: `2 + 2 * tag_len + |p|` bytes off the front of the buffer, a
plaintext of at least one and at most `room` bytes, and the nonce advanced twice. -/
theorem aeadChunkDecrypt_ok_inv {p rest n' : Bytes}
    (h : aeadChunkDecrypt L ctx room c n = some (.ok p rest n')) :
    2 * ctx.cipher.tagLen + chunkSizeLen + p.length ≤ c.length ∧
      rest = c.drop (2 * ctx.cipher.tagLen + chunkSizeLen + p.length) ∧
      0 < p.length ∧ p.length ≤ room ∧ n' = sodiumIncrement (sodiumIncrement n) := by
  by_cases hc : c.length ≤ 2 * ctx.cipher.tagLen + chunkSizeLen
  · simp [aeadChunkDecrypt_short L ctx room n hc] at h
  rw [aeadChunkDecrypt_eq L ctx room n (Nat.lt_of_not_le hc)] at h
  split at h
  · cases h
  rename_i lenBuf _
  split_ifs at h with hbad hshort hroom
  iterate 2 · cases h
  split at h
  · cases h
  rename_i q hq
  obtain ⟨rfl, rfl, rfl⟩ := ChunkDecrypt.ok.inj (Option.some.inj h)
  have := authDecrypt_length_tagLen hq
  simp only [List.length_take, List.length_drop] at this
  have hpl : q.length = ntohs lenBuf := by omega
  rw [hpl]
  exact ⟨by omega, rfl, by omega, by omega, rfl⟩

/-- With room for the whole buffer a chunk is always decided: every slice and difference
is in range and the plaintext fits. -/
theorem aeadChunkDecrypt_isSome (hroom : c.length ≤ room) :
    (aeadChunkDecrypt L ctx room c n).isSome := by
  by_cases hc : c.length ≤ 2 * ctx.cipher.tagLen + chunkSizeLen
  · simp [aeadChunkDecrypt_short L ctx room n hc]
  rw [aeadChunkDecrypt_eq L ctx room n (Nat.lt_of_not_le hc)]
  split
  · rfl
  split_ifs
  · rfl
  · rfl
  · omega
  · split <;> rfl

end Chunk

/-- The `while (cipher_ctx->chunk->len > 0)` loop of `aead_decrypt`, `room` being the size
`L0` of the scratch plaintext and `plain` what the loop has put there. -/
def decryptLoop (L : CryptoLib) (room : Nat) (ctx : CipherCtx) (plain : Bytes) :
    Option (Reply × CipherCtx) :=
  if 0 < ctx.chunk.length then
    match h : aeadChunkDecrypt L ctx (room - plain.length) ctx.chunk ctx.nonce with
    | none => none
    | some (.error n) => some (.error, { ctx with nonce := n })
    | some .needMore => some (if plain.length = 0 then .needMore else .ok plain, ctx)
    | some (.ok p rest n) =>
      decryptLoop L room { ctx with chunk := rest, nonce := n } (plain ++ p)
  else some (.ok plain, ctx)
termination_by ctx.chunk.length
decreasing_by
  simp_wf
  obtain ⟨hle, rfl, hpos, -⟩ := aeadChunkDecrypt_ok_inv L _ _ _ h
  rw [List.length_drop]
  omega

/-! ## The chunk loop -/

section Loop

variable {L : CryptoLib} {room : Nat}

theorem decryptLoop_nil {ctx : CipherCtx} (plain : Bytes) (h : ctx.chunk = []) :
    decryptLoop L room ctx plain = some (.ok plain, ctx) := by
  rw [decryptLoop, if_neg (by simp [h])]

theorem decryptLoop_step {ctx : CipherCtx} {plain : Bytes} (h : 0 < ctx.chunk.length) :
    decryptLoop L room ctx plain =
      match aeadChunkDecrypt L ctx (room - plain.length) ctx.chunk ctx.nonce with
      | none => none
      | some (.error n) => some (.error, { ctx with nonce := n })
      | some .needMore => some (if plain.length = 0 then .needMore else .ok plain, ctx)
      | some (.ok p rest n) =>
        decryptLoop L room { ctx with chunk := rest, nonce := n } (plain ++ p) := by
  rw [decryptLoop, if_pos h]
  split <;> rename_i heq <;> simp only [heq]

/-- The loop keeps `plen + chunk->len ≤ L0`, so every chunk it pops fits in the scratch
buffer, and it returns. -/
theorem decryptLoop_isSome (ctx : CipherCtx) (plain : Bytes)
    (h : plain.length + ctx.chunk.length ≤ room) : (decryptLoop L room ctx plain).isSome := by
  induction ctx, plain using decryptLoop.induct L room with
  | case1 ctx plain _ hnone =>
    have := @aeadChunkDecrypt_isSome L ctx (room - plain.length) ctx.chunk ctx.nonce (by omega)
    rw [hnone] at this
    cases this
  | case2 ctx plain hpos n herr => simp [decryptLoop_step hpos, herr]
  | case3 ctx plain hpos hmore => simp [decryptLoop_step hpos, hmore]
  | case4 ctx plain hpos p rest n hok ih =>
    obtain ⟨hle, rfl, -⟩ := aeadChunkDecrypt_ok_inv L _ _ _ hok
    rw [decryptLoop_step hpos, hok]
    exact ih (by simp only [List.length_append, List.length_drop]; omega)
  | case5 ctx plain hpos => rw [decryptLoop, if_neg hpos]; rfl

/-- The loop changes the buffer and the nonce, nothing else a caller reads. -/
theorem decryptLoop_frame {ctx : CipherCtx} {plain : Bytes} {r : Reply} {ctx' : CipherCtx}
    (h : decryptLoop L room ctx plain = some (r, ctx')) :
    ctx'.cipher = ctx.cipher ∧ ctx'.init = ctx.init ∧ ctx'.salt = ctx.salt := by
  induction ctx, plain using decryptLoop.induct L room with
  | case1 ctx plain hpos hnone =>
    rw [decryptLoop_step hpos, hnone] at h
    cases h
  | case2 ctx plain hpos n herr =>
    rw [decryptLoop_step hpos, herr] at h
    cases h
    exact ⟨rfl, rfl, rfl⟩
  | case3 ctx plain hpos hmore =>
    rw [decryptLoop_step hpos, hmore] at h
    cases h
    exact ⟨rfl, rfl, rfl⟩
  | case4 ctx plain hpos p rest n hok ih =>
    rw [decryptLoop_step hpos, hok] at h
    exact ih h
  | case5 ctx plain hpos =>
    rw [decryptLoop, if_neg hpos] at h
    cases h
    exact ⟨rfl, rfl, rfl⟩

end Loop

/-- `aead_decrypt(ciphertext, cipher_ctx, capacity)` against the replay filter `g`. -/
def aeadDecrypt (L : CryptoLib) (moduleRemote : Bool) (g : Sbf) (ctx : CipherCtx)
    (ciphertext : Bytes) : Option (Reply × CipherCtx × Sbf) := do
  let ctx := { ctx with chunk := ctx.chunk ++ ciphertext }
  let room := ctx.chunk.length
  if ctx.init then
    let (r, ctx) ← decryptLoop L room ctx []
    return (r, ctx, g)
  if ctx.chunk.length ≤ ctx.cipher.keyLen then return (.needMore, ctx, g)
  let salt ← bufSlice ctx.chunk 0 ctx.cipher.keyLen
  let ctx := aeadCipherCtxSetSubkey L { ctx with salt }
  if moduleRemote && fsSbfCheck g salt then return (.error, ctx, g)
  let g := if moduleRemote then fsSbfAdd g salt else g
  let rest ← sizeSub ctx.chunk.length ctx.cipher.keyLen
  let body ← bufSlice ctx.chunk ctx.cipher.keyLen rest
  let (r, ctx) ← decryptLoop L room { ctx with chunk := body, init := true } []
  return (r, ctx, g)

/-- Successive `aead_decrypt` calls on one context, one per segment. -/
def decryptRun (L : CryptoLib) (moduleRemote : Bool) :
    Sbf → CipherCtx → List Bytes → Option (List Reply × CipherCtx × Sbf)
  | g, ctx, [] => some ([], ctx, g)
  | g, ctx, seg :: segs => do
    let (r, ctx, g) ← aeadDecrypt L moduleRemote g ctx seg
    let (rs, ctx, g) ← decryptRun L moduleRemote g ctx segs
    return (r :: rs, ctx, g)

/-! ## A call -/

section Call

variable (L : CryptoLib) (moduleRemote : Bool) (g : Sbf) {ctx : CipherCtx} (X : Bytes)

/-- Once the salt is in, a call appends its bytes and runs the loop over the whole buffer,
the scratch buffer sized to it. -/
theorem aeadDecrypt_init (h : ctx.init = true) :
    aeadDecrypt L moduleRemote g ctx X =
      (decryptLoop L (ctx.chunk ++ X).length { ctx with chunk := ctx.chunk ++ X } []).map
        fun rc => (rc.1, rc.2, g) := by
  simp only [aeadDecrypt, h, if_true, Option.bind_eq_bind, Option.pure_def, Option.map_eq_bind]
  rfl

/-- Until more than `key_len` bytes are in, a call only buffers them. -/
theorem aeadDecrypt_wait (h : ctx.init = false)
    (hs : (ctx.chunk ++ X).length ≤ ctx.cipher.keyLen) :
    aeadDecrypt L moduleRemote g ctx X =
      some (.needMore, { ctx with chunk := ctx.chunk ++ X }, g) := by
  simp only [aeadDecrypt, h, Bool.false_eq_true, if_false, hs, if_true]
  rfl

/-- The context when the call that completes the salt has copied it off the buffer `S` and
set the subkey, as the replay check finds it. -/
def saltCopied (ctx : CipherCtx) (S : Bytes) : CipherCtx :=
  aeadCipherCtxSetSubkey L { ctx with chunk := S, salt := S.take ctx.cipher.keyLen }

/-- The context once the salt bytes are dropped from `S` and `init` is set. -/
def saltTaken (ctx : CipherCtx) (S : Bytes) : CipherCtx :=
  { saltCopied L ctx S with chunk := S.drop ctx.cipher.keyLen, init := true }

section Salt

variable (ctx : CipherCtx) (S : Bytes)

@[simp] theorem saltCopied_cipher : (saltCopied L ctx S).cipher = ctx.cipher := rfl

@[simp] theorem saltCopied_init : (saltCopied L ctx S).init = ctx.init := rfl

@[simp] theorem saltCopied_chunk : (saltCopied L ctx S).chunk = S := rfl

@[simp] theorem saltTaken_cipher : (saltTaken L ctx S).cipher = ctx.cipher := rfl

@[simp] theorem saltTaken_init : (saltTaken L ctx S).init = true := rfl

@[simp] theorem saltTaken_chunk : (saltTaken L ctx S).chunk = S.drop ctx.cipher.keyLen := rfl

@[simp] theorem saltTaken_nonce : (saltTaken L ctx S).nonce = leBytes ctx.cipher.nonceLen 0 :=
  aeadCipherCtxSetSubkey_nonce L _

@[simp] theorem saltTaken_sessionKey :
    (saltTaken L ctx S).sessionKey = deriveSubkey L ctx.cipher (S.take ctx.cipher.keyLen) :=
  aeadCipherCtxSetSubkey_sessionKey L { ctx with chunk := S, salt := S.take ctx.cipher.keyLen }

end Salt

/-- The call that completes the salt derives the subkey from it, consults and feeds the
replay filter, and runs the loop on what follows the salt. -/
theorem aeadDecrypt_salt (h : ctx.init = false)
    (hs : ctx.cipher.keyLen < (ctx.chunk ++ X).length) :
    aeadDecrypt L moduleRemote g ctx X =
      if moduleRemote && fsSbfCheck g ((ctx.chunk ++ X).take ctx.cipher.keyLen) then
        some (.error, saltCopied L ctx (ctx.chunk ++ X), g)
      else (decryptLoop L (ctx.chunk ++ X).length (saltTaken L ctx (ctx.chunk ++ X)) []).map
        fun rc => (rc.1, rc.2,
          if moduleRemote then fsSbfAdd g ((ctx.chunk ++ X).take ctx.cipher.keyLen) else g) := by
  have hbody : ((ctx.chunk ++ X).drop ctx.cipher.keyLen).take
      ((ctx.chunk ++ X).length - ctx.cipher.keyLen) = (ctx.chunk ++ X).drop ctx.cipher.keyLen :=
    List.take_of_length_le (by simp)
  simp only [aeadDecrypt, h, Bool.false_eq_true, if_false, Nat.not_le.mpr hs, List.drop_zero,
    bufSlice_of_le (by omega : 0 + ctx.cipher.keyLen ≤ (ctx.chunk ++ X).length),
    bufSlice_of_le (by omega : ctx.cipher.keyLen + ((ctx.chunk ++ X).length - ctx.cipher.keyLen)
      ≤ (ctx.chunk ++ X).length),
    sizeSub_of_le hs.le, aeadCipherCtxSetSubkey_chunk, aeadCipherCtxSetSubkey_cipher, hbody,
    Option.bind_eq_bind, Option.some_bind, Option.pure_def, Option.map_eq_bind]
  split
  · simp only [saltCopied, h]
  · rfl

/-- Whatever the context and the segment, a call returns. -/
theorem aeadDecrypt_isSome (ctx : CipherCtx) : (aeadDecrypt L moduleRemote g ctx X).isSome := by
  cases h : ctx.init
  · by_cases hs : (ctx.chunk ++ X).length ≤ ctx.cipher.keyLen
    · simp [aeadDecrypt_wait L moduleRemote g X h hs]
    rw [aeadDecrypt_salt L moduleRemote g X h (Nat.lt_of_not_le hs)]
    split
    · rfl
    · rw [Option.isSome_map']
      exact decryptLoop_isSome _ [] (by simp)
  · rw [aeadDecrypt_init L moduleRemote g X h, Option.isSome_map']
    exact decryptLoop_isSome _ [] (by simp)

/-- What a server-side call does to its context and to the replay filter: with the salt
already taken it leaves the filter alone; before, it either keeps waiting for the salt, or
refuses a salt the filter has seen, leaving the filter alone and answering no plaintext, or
takes a salt the filter has not seen and adds it. -/
theorem aeadDecrypt_remote_cases {r : Reply} {ctx' : CipherCtx} {g' : Sbf}
    (h : aeadDecrypt L true g ctx X = some (r, ctx', g')) :
    ctx'.cipher = ctx.cipher ∧
      ((ctx.init = true ∧ ctx'.init = true ∧ g' = g) ∨
        (ctx.init = false ∧ ctx'.init = false ∧ ctx'.chunk = ctx.chunk ++ X ∧ g' = g ∧
          ∀ p, r ≠ .ok p) ∨
        (ctx.init = false ∧ ctx'.init = true ∧ ctx.cipher.keyLen < (ctx.chunk ++ X).length ∧
          (ctx.chunk ++ X).take ctx.cipher.keyLen ∉ g ∧
          g' = (ctx.chunk ++ X).take ctx.cipher.keyLen :: g)) := by
  cases hinit : ctx.init
  case true =>
    rw [aeadDecrypt_init L true g X hinit] at h
    obtain ⟨⟨r₀, ctx₀⟩, hloop, hx⟩ := Option.map_eq_some'.mp h
    cases hx
    obtain ⟨hc, hi, -⟩ := decryptLoop_frame hloop
    exact ⟨hc, .inl ⟨rfl, hi.trans hinit, rfl⟩⟩
  case false =>
    by_cases hs : (ctx.chunk ++ X).length ≤ ctx.cipher.keyLen
    · rw [aeadDecrypt_wait L true g X hinit hs] at h
      cases h
      exact ⟨rfl, .inr (.inl ⟨rfl, hinit, rfl, rfl, fun _ => Reply.noConfusion⟩)⟩
    rw [aeadDecrypt_salt L true g X hinit (Nat.lt_of_not_le hs)] at h
    split at h
    · cases h
      exact ⟨rfl, .inr (.inl ⟨rfl, hinit, rfl, rfl, fun _ => Reply.noConfusion⟩)⟩
    · rename_i hnew
      obtain ⟨⟨r₀, ctx₀⟩, hloop, hx⟩ := Option.map_eq_some'.mp h
      cases hx
      obtain ⟨hc, hi, -⟩ := decryptLoop_frame hloop
      refine ⟨hc, .inr (.inr ⟨rfl, hi, Nat.lt_of_not_le hs, ?_, rfl⟩)⟩
      simpa [fsSbfCheck] using hnew

/-- What a client-side call does: it never touches the filter, and its context takes the salt
as soon as more than `key_len` bytes are in, buffering them all until then. -/
theorem aeadDecrypt_local_cases {r : Reply} {ctx' : CipherCtx} {g' : Sbf}
    (h : aeadDecrypt L false g ctx X = some (r, ctx', g')) :
    g' = g ∧ ctx'.cipher = ctx.cipher ∧
      ctx'.init = (ctx.init || decide (ctx.cipher.keyLen < (ctx.chunk ++ X).length)) ∧
      (ctx'.init = false → ctx'.chunk = ctx.chunk ++ X) := by
  cases hinit : ctx.init
  case true =>
    rw [aeadDecrypt_init L false g X hinit] at h
    obtain ⟨⟨r₀, ctx₀⟩, hloop, hx⟩ := Option.map_eq_some'.mp h
    cases hx
    obtain ⟨hc, hi, -⟩ := decryptLoop_frame hloop
    exact ⟨rfl, hc, hi.trans hinit, fun h' => absurd (h'.symm.trans (hi.trans hinit)) Bool.noConfusion⟩
  case false =>
    by_cases hs : (ctx.chunk ++ X).length ≤ ctx.cipher.keyLen
    · rw [aeadDecrypt_wait L false g X hinit hs] at h
      cases h
      exact ⟨rfl, rfl, by simpa [hinit] using hs, fun _ => rfl⟩
    rw [aeadDecrypt_salt L false g X hinit (Nat.lt_of_not_le hs), Bool.false_and, if_neg
      Bool.false_ne_true] at h
    obtain ⟨⟨r₀, ctx₀⟩, hloop, hx⟩ := Option.map_eq_some'.mp h
    cases hx
    obtain ⟨hc, hi, -⟩ := decryptLoop_frame hloop
    refine ⟨rfl, hc, by simpa [hi] using Nat.lt_of_not_le hs, fun h' => ?_⟩
    rw [hi, saltTaken_init] at h'
    cases h'

end Call

/-- Successive calls on one context return, whatever they are fed. -/
theorem decryptRun_isSome (L : CryptoLib) (moduleRemote : Bool) :
    ∀ (g : Sbf) (ctx : CipherCtx) (segs : List Bytes),
      (decryptRun L moduleRemote g ctx segs).isSome
  | _, _, [] => rfl
  | g, ctx, seg :: segs => by
    obtain ⟨⟨r, ctx', g'⟩, h⟩ := Option.isSome_iff_exists.mp (aeadDecrypt_isSome L moduleRemote g seg ctx)
    obtain ⟨⟨rs, ctx'', g''⟩, h'⟩ := Option.isSome_iff_exists.mp (decryptRun_isSome L moduleRemote g' ctx' segs)
    simp [decryptRun, h, h']

/-- A run over `seg :: segs` is a call on `seg`, then a run over `segs`. -/
theorem decryptRun_cons_inv {L : CryptoLib} {moduleRemote : Bool} {g : Sbf} {ctx : CipherCtx}
    {seg : Bytes} {segs : List Bytes} {rs : List Reply} {ctx' : CipherCtx} {g' : Sbf}
    (h : decryptRun L moduleRemote g ctx (seg :: segs) = some (rs, ctx', g')) :
    ∃ r ctx₁ g₁ rs₁, aeadDecrypt L moduleRemote g ctx seg = some (r, ctx₁, g₁) ∧
      decryptRun L moduleRemote g₁ ctx₁ segs = some (rs₁, ctx', g') ∧ rs = r :: rs₁ := by
  simp only [decryptRun, Option.bind_eq_bind, Option.bind_eq_some, Option.pure_def,
    Option.some.injEq, Prod.mk.injEq] at h
  obtain ⟨⟨r, ctx₁, g₁⟩, h₁, ⟨rs₁, _, _⟩, h₂, rfl, rfl, rfl⟩ := h
  exact ⟨r, ctx₁, g₁, rs₁, h₁, h₂, rfl⟩

/-- One more segment: the run over `a ++ [X]` is the run over `a`, then one call. -/
theorem decryptRun_snoc (L : CryptoLib) (moduleRemote : Bool) (X : Bytes) {r : Reply}
    {ctx'' : CipherCtx} {g'' : Sbf} :
    ∀ {g : Sbf} {ctx : CipherCtx} {a : List Bytes} {rs : List Reply} {ctx' : CipherCtx} {g' : Sbf},
      decryptRun L moduleRemote g ctx a = some (rs, ctx', g') →
      aeadDecrypt L moduleRemote g' ctx' X = some (r, ctx'', g'') →
      decryptRun L moduleRemote g ctx (a ++ [X]) = some (rs ++ [r], ctx'', g'')
  | _, _, [], _, _, _, h, hX => by
    cases h
    simp [decryptRun, hX]
  | _, _, _ :: _, _, _, _, h, hX => by
    obtain ⟨r₀, ctx₀, g₀, rs₁, h₀, h₁, rfl⟩ := decryptRun_cons_inv h
    simp [decryptRun, h₀, decryptRun_snoc L moduleRemote X h₁ hX]

/-- A run answers each segment once. -/
theorem decryptRun_length (L : CryptoLib) (moduleRemote : Bool) :
    ∀ {g : Sbf} {ctx : CipherCtx} {segs : List Bytes} {rs : List Reply} {ctx' : CipherCtx}
      {g' : Sbf}, decryptRun L moduleRemote g ctx segs = some (rs, ctx', g') →
      rs.length = segs.length
  | _, _, [], _, _, _, h => by cases h; rfl
  | _, _, _ :: _, _, _, _, h => by
    obtain ⟨_, _, _, _, -, h₁, rfl⟩ := decryptRun_cons_inv h
    simp [decryptRun_length L moduleRemote h₁]

/-- Index safety and termination of the decrypt paths.  From any context and on any
segments, every slice and `size_t` difference that `aead_decrypt`, `aead_chunk_decrypt` and
`aead_cipher_decrypt` take is in range and every plaintext write fits, so every sequence of
calls returns; so does `aead_decrypt_all` on any datagram.  The loop returns from any state
with `plen + chunk->len ≤ L0`, and a popped chunk writes no more than the room it is given and
takes `2 + 2 * tag_len + |p|` bytes, `|p| ≥ 1`, off the buffer, which keeps that bound and
makes the loop terminate. -/
theorem decrypt_paths_in_range (L : CryptoLib) (moduleRemote : Bool) :
    (∀ g ctx segs, (decryptRun L moduleRemote g ctx segs).isSome) ∧
    (∀ g c d, (aeadDecryptAll L moduleRemote g c d).isSome) ∧
    (∀ room ctx plain, plain.length + ctx.chunk.length ≤ room →
      (decryptLoop L room ctx plain).isSome) ∧
    (∀ ctx room c n p rest n', aeadChunkDecrypt L ctx room c n = some (.ok p rest n') →
      p.length ≤ room ∧
        rest.length + (2 * ctx.cipher.tagLen + chunkSizeLen + p.length) = c.length ∧
        0 < p.length) :=
  ⟨decryptRun_isSome L moduleRemote, aeadDecryptAll_isSome L moduleRemote,
    fun _ ctx plain h => decryptLoop_isSome ctx plain h,
    fun ctx room c n _ _ _ h => by
      obtain ⟨hle, rfl, hpos, hroom, -⟩ := aeadChunkDecrypt_ok_inv L ctx room n h
      exact ⟨hroom, by rw [List.length_drop]; omega, hpos⟩⟩

/-- One `chacha20-poly1305` chunk holding the byte `7`, keyed from the password `pw`, over the
transparent library: popped from a buffer that holds exactly it, and the loop run on a context
whose buffer holds it, with room for it. -/
theorem decrypt_paths_in_range_one_chunk :
    aeadChunkDecrypt CryptoLib.plain
        (aeadCtxInit (aeadKeyInit CryptoLib.plain .chacha20poly1305 [112, 119]) false []) 35
        (htons 1 ++ List.replicate 16 0 ++ [7] ++ List.replicate 16 0) (leBytes 8 0) =
      some (.ok [7] [] (leBytes 8 2)) ∧
    (([7] : Bytes).length ≤ 35 ∧
      ([] : Bytes).length + (2 * 16 + chunkSizeLen + ([7] : Bytes).length) =
        (htons 1 ++ List.replicate 16 0 ++ [7] ++ List.replicate 16 0).length ∧
      0 < ([7] : Bytes).length) ∧
    ([] : Bytes).length + (htons 1 ++ List.replicate 16 0 ++ [7] ++ List.replicate 16 0).length ≤ 35 ∧
    (decryptLoop CryptoLib.plain 35
      { aeadCtxInit (aeadKeyInit CryptoLib.plain .chacha20poly1305 [112, 119]) false [] with
        chunk := htons 1 ++ List.replicate 16 0 ++ [7] ++ List.replicate 16 0 } []).isSome :=
  have h : aeadChunkDecrypt CryptoLib.plain
      (aeadCtxInit (aeadKeyInit CryptoLib.plain .chacha20poly1305 [112, 119]) false []) 35
      (htons 1 ++ List.replicate 16 0 ++ [7] ++ List.replicate 16 0) (leBytes 8 0) =
      some (.ok [7] [] (leBytes 8 2)) := rfl
  ⟨h, (decrypt_paths_in_range CryptoLib.plain false).2.2.2 _ _ _ _ _ _ _ h, by decide,
    (decrypt_paths_in_range CryptoLib.plain false).2.2.1 35 _ [] (by decide)⟩

end ShadowAead

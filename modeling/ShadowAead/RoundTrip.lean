import ShadowAead.Refinement
/-
# `ShadowAead.RoundTrip` — a TCP stream comes back whole, however it is cut

The sending side's run lemmas (`encryptRun_fresh`) say which bytes a sequence of
`aead_encrypt` calls returns: the salt, then one frame per non-empty plaintext.  Here the
reference decoder is run on every prefix of that stream: with primitives that invert each
other it reads back exactly the plaintexts whose frames the prefix holds in full, and it
never fails.  The refinement theorem of `ShadowAead.Refinement` then carries this over to
`aead_decrypt`, for any cut of the stream into segments.

`delivered` states "the plaintexts whose frames lie wholly inside the first `n` bytes" from
the sending side alone, pairing each plaintext with the bytes its call returned.
-/

namespace ShadowAead

/-- The plaintexts of a stream whose returned buffers lie wholly within its first `n`
bytes, each plaintext paired with the bytes its `aead_encrypt` call returned. -/
def delivered : Nat → List (Bytes × Bytes) → Bytes
  | _, [] => []
  | n, (p, out) :: rest => if out.length ≤ n then p ++ delivered (n - out.length) rest else []

/-- All of a stream delivers every plaintext. -/
theorem delivered_all : ∀ qs : List (Bytes × Bytes),
    delivered (qs.map Prod.snd).flatten.length qs = (qs.map Prod.fst).flatten
  | [] => rfl
  | (p, out) :: qs => by
    simp only [List.map_cons, List.flatten_cons, List.length_append, delivered,
      if_pos (Nat.le_add_right _ _), Nat.add_sub_cancel_left, delivered_all qs]

theorem delivered_of_fst_nil : ∀ (n : Nat) (qs : List (Bytes × Bytes)), (∀ q ∈ qs, q.1 = []) →
    delivered n qs = []
  | _, [], _ => rfl
  | n, (p, out) :: qs, h => by
    have hp : p = [] := h _ (List.mem_cons_self _ _)
    rw [delivered, delivered_of_fst_nil _ qs fun q hq => h q (List.mem_cons_of_mem _ hq), hp]
    simp

/-! ## Decoding one frame -/

section Frame

variable {L : CryptoLib} (hinv : L.Inverts) {c : Cipher} {sk : Bytes}

theorem length_lengthBlock (n : Bytes) (m : Nat) :
    (L.authEncrypt c.method sk n (htons m)).length = 2 + c.tagLen := by
  rw [L.authEncrypt_length, length_htons]
  rfl

include hinv

/-- A frame decodes to its plaintext, whatever follows it. -/
theorem decodeStep_frame (i : Nat) {p : Bytes} (hp : p ≠ []) (hlen : p.length ≤ chunkSizeMask)
    (X : Bytes) : decodeStep L c sk i (frame L c sk i p ++ X) = .chunk p X := by
  have h1 : (L.authEncrypt c.method sk (leBytes c.nonceLen (2 * i)) (htons p.length)).length =
      2 + c.tagLen := length_lengthBlock _ _
  have h2 : (L.authEncrypt c.method sk (leBytes c.nonceLen (2 * i + 1)) p).length =
      p.length + c.tagLen := L.authEncrypt_length _ _ _ _
  have hm : ntohs (htons p.length) = p.length :=
    ntohs_htons (by unfold chunkSizeMask at hlen; omega)
  have hpos : 0 < p.length := List.length_pos.mpr hp
  unfold decodeStep frame
  rw [if_neg (by simp only [List.length_append, h1, h2]; omega), List.append_assoc,
    List.take_left' h1, hinv]
  dsimp only
  rw [hm, if_neg (by unfold chunkSizeMask at hlen; omega),
    if_neg (by simp only [List.length_append, h1, h2]; omega),
    List.drop_left' h1, List.take_left' h2, hinv, ← List.append_assoc,
    List.drop_left' (by rw [List.length_append, h1, h2]; omega)]

/-- A frame cut short leaves the decoder pending: the length block, once whole, opens to a
valid length, and the payload is not all there. -/
theorem decodeStep_frame_take (i : Nat) {p : Bytes} (hp : p ≠ [])
    (hlen : p.length ≤ chunkSizeMask) {n : Nat} (hn : n < (frame L c sk i p).length) :
    decodeStep L c sk i ((frame L c sk i p).take n) = .pending := by
  have h1 : (L.authEncrypt c.method sk (leBytes c.nonceLen (2 * i)) (htons p.length)).length =
      2 + c.tagLen := length_lengthBlock _ _
  have hfl : (frame L c sk i p).length = 2 + c.tagLen + (p.length + c.tagLen) := by
    rw [frame, List.length_append, h1]
    exact congrArg _ (L.authEncrypt_length _ _ _ _)
  unfold decodeStep
  by_cases hs : ((frame L c sk i p).take n).length ≤ 2 + 2 * c.tagLen
  · rw [if_pos hs]
  have hn' : 2 + c.tagLen ≤ n := by simp only [List.length_take] at hs; omega
  rw [if_neg hs, List.take_take, Nat.min_eq_left hn', frame, List.take_left' h1, hinv]
  dsimp only
  rw [ntohs_htons (by unfold chunkSizeMask at hlen; omega),
    if_neg (by have := List.length_pos.mpr hp; unfold chunkSizeMask at hlen; omega),
    if_pos (by rw [List.length_take, ← frame]; omega)]

end Frame

/-! ## A run's stream -/

section Stream

variable {L : CryptoLib} {c : Cipher} {sk : Bytes}

/-- A run's bytes: nothing while every plaintext is empty, and otherwise the salt followed by
the frames. -/
theorem sealedStream_some (salt : Bytes) : ∀ (i : Nat) (ps : List Bytes),
    ((sealedBuffers L c sk (some salt) i ps).map Buffer.data).flatten =
      if chunkCount ps = 0 then []
      else salt ++ ((sealedBuffers L c sk none i ps).map Buffer.data).flatten
  | _, [] => rfl
  | i, p :: ps => by
    by_cases hp : p = []
    · subst hp
      simp [sealedBuffers, chunkCount_cons, sealedStream_some salt i ps]
    · simp [sealedBuffers, hp, chunkCount_cons]

/-- The salt only shifts where each frame ends. -/
theorem delivered_sealed_some (salt : Bytes) : ∀ (i n : Nat) (ps : List Bytes),
    delivered n (ps.zip ((sealedBuffers L c sk (some salt) i ps).map Buffer.data)) =
      delivered (n - salt.length) (ps.zip ((sealedBuffers L c sk none i ps).map Buffer.data))
  | _, _, [] => rfl
  | i, n, p :: ps => by
    by_cases hp : p = []
    · subst hp
      simp only [sealedBuffers, if_pos rfl, List.map_cons, List.zip_cons_cons, delivered,
        List.length_nil, Nat.zero_le, if_true, List.nil_append, Nat.sub_zero]
      exact delivered_sealed_some salt i n ps
    have hf : 0 < (frame L c sk i p).length := by
      rw [length_frame, show chunkSizeLen = 2 from rfl]; omega
    simp only [sealedBuffers, if_neg hp, Option.getD_some, Option.getD_none, List.nil_append,
      List.map_cons, List.zip_cons_cons, delivered, List.length_append]
    by_cases h : salt.length + (frame L c sk i p).length ≤ n
    · rw [if_pos h, if_pos (by omega), Nat.sub_sub]
    · rw [if_neg h, if_neg (by omega)]

/-- An empty plaintext's call returns an empty buffer. -/
theorem sealedBuffers_empty : ∀ (salt : Option Bytes) (i : Nat) (ps : List Bytes),
    ∀ q ∈ ps.zip (sealedBuffers L c sk salt i ps), q.1 = [] → q.2 = ⟨0, []⟩
  | _, _, [] => by simp
  | salt, i, p :: ps => by
    intro q hq hq1
    by_cases hp : p = []
    · rw [sealedBuffers, if_pos hp, List.zip_cons_cons, List.mem_cons] at hq
      rcases hq with rfl | hq
      · rfl
      · exact sealedBuffers_empty salt i ps q hq hq1
    · rw [sealedBuffers, if_neg hp, List.zip_cons_cons, List.mem_cons] at hq
      rcases hq with rfl | hq
      · exact absurd hq1 hp
      · exact sealedBuffers_empty none (i + 1) ps q hq hq1

/-- Every buffer of a run declares exactly the bytes written into it. -/
theorem sealedBuffers_len : ∀ (salt : Option Bytes) (i : Nat) (ps : List Bytes),
    (∀ s ∈ salt, s.length = c.keyLen) →
    ∀ b ∈ sealedBuffers L c sk salt i ps, b.len = b.data.length
  | _, _, [], _ => by simp [sealedBuffers]
  | salt, i, p :: ps, hs => by
    intro b hb
    unfold sealedBuffers at hb
    split at hb
    · rcases List.mem_cons.mp hb with rfl | hb
      · rfl
      · exact sealedBuffers_len salt i ps hs b hb
    · rcases List.mem_cons.mp hb with rfl | hb
      · cases salt with
        | none => simp [length_frame]
        | some s => simp [length_frame, hs s rfl]; omega
      · exact sealedBuffers_len none (i + 1) ps (by simp) b hb

/-- The first `key_len` bytes of a non-empty stream are the salt. -/
theorem sealedStream_take_keyLen {rand : Bytes} (hrand : rand.length = c.keyLen) (i : Nat)
    (ps : List Bytes)
    (hlen : c.keyLen < ((sealedBuffers L c sk (some rand) i ps).map Buffer.data).flatten.length) :
    ((sealedBuffers L c sk (some rand) i ps).map Buffer.data).flatten.take c.keyLen = rand := by
  rw [sealedStream_some] at hlen ⊢
  by_cases hc : chunkCount ps = 0
  · rw [if_pos hc] at hlen
    exact absurd hlen (Nat.not_lt_zero _)
  · rw [if_neg hc]
    exact List.take_left' hrand

variable (hinv : L.Inverts)

include hinv

/-- The reference decoder on any prefix of a run's frames, from chunk `i`, is pending and
has read back exactly the plaintexts whose frames the prefix holds. -/
theorem decodeChunks_sealed_take : ∀ (ps : List Bytes) (i n : Nat),
    (∀ p ∈ ps, p.length ≤ chunkSizeMask) →
    ∃ ms rest, decodeChunks L c sk i
        (((sealedBuffers L c sk none i ps).map Buffer.data).flatten.take n) = .pending ms rest ∧
      ms.flatten = delivered n (ps.zip ((sealedBuffers L c sk none i ps).map Buffer.data))
  | [], i, n, _ => ⟨[], [], by simp [sealedBuffers], rfl⟩
  | p :: ps, i, n, hps => by
    have hrest := fun q hq => hps q (List.mem_cons_of_mem p hq)
    by_cases hp : p = []
    · subst hp
      obtain ⟨ms, rest, hd, hms⟩ := decodeChunks_sealed_take ps i n hrest
      refine ⟨ms, rest, by simpa [sealedBuffers] using hd, ?_⟩
      simp only [sealedBuffers, if_pos rfl, List.map_cons, List.zip_cons_cons, delivered,
        List.length_nil, Nat.zero_le, if_true, List.nil_append, Nat.sub_zero, hms]
      rfl
    have hlen := hps p (List.mem_cons_self p ps)
    simp only [sealedBuffers, if_neg hp, Option.getD_none, List.nil_append, List.map_cons,
      List.flatten_cons, List.zip_cons_cons, delivered]
    by_cases hn : (frame L c sk i p).length ≤ n
    · obtain ⟨ms, rest, hd, hms⟩ :=
        decodeChunks_sealed_take ps (i + 1) (n - (frame L c sk i p).length) hrest
      rw [List.take_append_eq_append_take, List.take_of_length_le hn,
        decodeChunks_of_chunk (decodeStep_frame hinv i hp hlen _), hd, if_pos hn]
      exact ⟨p :: ms, rest, rfl, by simp [hms]⟩
    · rw [List.take_append_of_le_length (Nat.le_of_not_le hn),
        decodeChunks_of_pending (decodeStep_frame_take hinv i hp hlen (Nat.lt_of_not_le hn)),
        if_neg hn]
      exact ⟨[], _, rfl, rfl⟩

/-- The reference decoder on any prefix of a run's stream, salt included, is pending and has
read back exactly the plaintexts whose buffers the prefix holds. -/
theorem referenceDecode_sealed_take {rand : Bytes} (hrand : rand.length = c.keyLen)
    (ps : List Bytes) (hps : ∀ p ∈ ps, p.length ≤ chunkSizeMask) (n : Nat) :
    ∃ ms rest, referenceDecode L c
        ((((sealedBuffers L c (deriveSubkey L c rand) (some rand) 0 ps).map Buffer.data).flatten).take
          n) = .pending ms rest ∧
      ms.flatten = delivered n
        (ps.zip ((sealedBuffers L c (deriveSubkey L c rand) (some rand) 0 ps).map Buffer.data)) := by
  rw [sealedStream_some]
  by_cases hc : chunkCount ps = 0
  · have hnil : ∀ p ∈ ps, p = [] := by
      simpa [chunkCount, List.countP_eq_zero] using hc
    rw [if_pos hc, List.take_nil,
      delivered_of_fst_nil n _ fun q hq => hnil q.1 (List.of_mem_zip hq).1]
    exact ⟨[], [], referenceDecode_short L c (Nat.zero_le _), rfl⟩
  rw [if_neg hc, delivered_sealed_some, hrand, List.take_append_eq_append_take, hrand]
  obtain ⟨ms, rest, hd, hms⟩ :=
    @decodeChunks_sealed_take L c (deriveSubkey L c rand) hinv ps 0 (n - c.keyLen) hps
  by_cases hF : ((sealedBuffers L c (deriveSubkey L c rand) none 0 ps).map
      Buffer.data).flatten.take (n - c.keyLen) = []
  · rw [hF, decodeChunks_nil] at hd
    obtain ⟨rfl, -⟩ := Decoded.pending.inj hd
    rw [hF, List.append_nil]
    exact ⟨[], _, referenceDecode_short L c (by rw [List.length_take]; omega), hms⟩
  have hn : c.keyLen < n := by
    by_contra h
    exact hF (by rw [Nat.sub_eq_zero_of_le (Nat.not_lt.mp h), List.take_zero])
  refine ⟨ms, rest, ?_, hms⟩
  rw [List.take_of_length_le (l := rand) (by omega), referenceDecode,
    if_neg (by have := List.length_pos.mpr hF; simp only [List.length_append, hrand]; omega),
    List.take_left' hrand, List.drop_left' hrand, hd]

end Stream


/-! ## The round trip -/

/-- The TCP round trip under any fragmentation.  Encrypt plaintexts of at most `0x3FFF`
bytes with successive `aead_encrypt` calls on a fresh context, over primitives that invert
each other.  Empty plaintexts return empty buffers, and every buffer declares exactly the
bytes written into it.  Cut the returned bytes into any segments and feed them in order to
`aead_decrypt` on a fresh decrypt context, client-side or against a filter that has not
seen the salt (an exact filter: one that also reports salts it was never given may refuse
the stream): no call returns `CRYPTO_ERROR`, after every call the plaintext returned so far is
that of the plaintexts whose buffers were fed in full, and after the last call it is all of
them. -/
theorem tcp_round_trip (L : CryptoLib) (hinv : L.Inverts) (c : Cipher) (rand : Bytes)
    (hrand : rand.length = c.keyLen) (ps : List Bytes)
    (hps : ∀ p ∈ ps, p.length ≤ chunkSizeMask) (moduleRemote : Bool) (g : Sbf)
    (hg : moduleRemote = true → rand ∉ g) :
    ∃ outs ctx, encryptRun L (aeadCtxInit c true rand) ps = some (outs, ctx) ∧
      (∀ q ∈ ps.zip (outs.map Prod.fst), q.1 = [] → q.2 = ⟨0, []⟩) ∧
      (∀ b ∈ outs.map Prod.fst, b.len = b.data.length) ∧
      ∀ segs : List Bytes, segs.flatten = (outs.map fun o => o.1.data).flatten →
        (∀ t, ∃ rs dctx g', decryptRun L moduleRemote g (aeadCtxInit c false []) (segs.take t) =
            some (rs, dctx, g') ∧ .error ∉ rs ∧
          (rs.map Reply.plaintext).flatten =
            delivered (segs.take t).flatten.length (ps.zip (outs.map fun o => o.1.data))) ∧
        ∃ rs dctx g', decryptRun L moduleRemote g (aeadCtxInit c false []) segs =
            some (rs, dctx, g') ∧ (rs.map Reply.plaintext).flatten = ps.flatten := by
  obtain ⟨ctxE, hrun, -⟩ := encryptRun_fresh L ps (aeadCtxInit_init c true rand) hps
  simp only [aeadCtxInit_cipher, aeadCtxInit_salt_true] at hrun
  have hfst : ((sealedBuffers L c (deriveSubkey L c rand) (some rand) 0 ps).zip
      (sealSchedule c.nonceLen (deriveSubkey L c rand) 0 ps)).map Prod.fst =
        sealedBuffers L c (deriveSubkey L c rand) (some rand) 0 ps :=
    List.map_fst_zip _ _ (by rw [length_sealedBuffers, length_sealSchedule])
  have hdata : (((sealedBuffers L c (deriveSubkey L c rand) (some rand) 0 ps).zip
      (sealSchedule c.nonceLen (deriveSubkey L c rand) 0 ps)).map fun o => o.1.data) =
        (sealedBuffers L c (deriveSubkey L c rand) (some rand) 0 ps).map Buffer.data := by
    rw [show (fun o : Buffer × List SealCall => o.1.data) = Buffer.data ∘ Prod.fst from rfl,
      ← List.map_map, hfst]
  refine ⟨_, ctxE, hrun, by rw [hfst]; exact sealedBuffers_empty _ _ _,
    by rw [hfst]; exact sealedBuffers_len _ _ _ (by simp [hrand]), fun segs hsegs => ?_⟩
  rw [hdata] at hsegs ⊢
  have hpart : ∀ t, ∃ rs dctx g', decryptRun L moduleRemote g (aeadCtxInit c false [])
      (segs.take t) = some (rs, dctx, g') ∧ .error ∉ rs ∧
      (rs.map Reply.plaintext).flatten = delivered (segs.take t).flatten.length
        (ps.zip ((sealedBuffers L c (deriveSubkey L c rand) (some rand) 0 ps).map Buffer.data)) := by
    intro t
    have hsplit : ((sealedBuffers L c (deriveSubkey L c rand) (some rand) 0 ps).map
        Buffer.data).flatten = (segs.take t).flatten ++ (segs.drop t).flatten := by
      rw [← hsegs, ← List.flatten_append, List.take_append_drop]
    obtain ⟨ms, rest, hdec, hms⟩ := referenceDecode_sealed_take hinv hrand ps hps
      (segs.take t).flatten.length
    rw [hsplit, List.take_left] at hdec
    obtain ⟨rs, dctx, g', ms', hdrun, hrs, hplain, ht⟩ :=
      @decryptRun_tracks L c moduleRemote (segs.take t) [] [] _ g (tracks_fresh L c)
        (fun _ hm hlt => by
          rw [List.nil_append] at hlt ⊢
          have hS := sealedStream_take_keyLen (L := L) hrand 0 ps
            (by rw [hsplit, List.length_append]; omega)
          rw [hsplit, List.take_append_of_le_length hlt.le] at hS
          rw [hS]
          exact hg hm)
        (by rw [List.nil_append, hdec]; exact Decoded.noConfusion)
    have hms' : ms' = ms := by
      have := ht.decode
      rw [List.nil_append, hdec] at this
      exact (Decoded.pending.inj this).1.symm
    exact ⟨rs, dctx, g', hdrun, hrs, by rw [hplain, hms', hms]⟩
  refine ⟨hpart, ?_⟩
  obtain ⟨rs, dctx, g', hdrun, -, hplain⟩ := hpart segs.length
  rw [List.take_length] at hdrun hplain
  refine ⟨rs, dctx, g', hdrun, ?_⟩
  have hlen : ((sealedBuffers L c (deriveSubkey L c rand) (some rand) 0 ps).map Buffer.data).length =
      ps.length := by rw [List.length_map, length_sealedBuffers]
  have hall := delivered_all (ps.zip
    ((sealedBuffers L c (deriveSubkey L c rand) (some rand) 0 ps).map Buffer.data))
  rw [List.map_snd_zip _ _ hlen.le, List.map_fst_zip _ _ hlen.ge] at hall
  rw [hplain, hsegs, hall]

/-- Three plaintexts, the middle one empty, under `chacha20-poly1305` keyed from the password
`pw`, with the zero salt, over the transparent library.  The calls send the salt and a chunk,
nothing, and a chunk; a client fed the stream one byte at a time has handed back `7` once the
first 67 bytes are in, and all the plaintexts at the end. -/
theorem tcp_round_trip_three :
    CryptoLib.plain.Inverts ∧
    (List.replicate 32 0 : Bytes).length =
      (aeadKeyInit CryptoLib.plain .chacha20poly1305 [112, 119]).keyLen ∧
    (∀ p ∈ ([[7], [], [8, 9]] : List Bytes), p.length ≤ chunkSizeMask) ∧
    (false = true → (List.replicate 32 0 : Bytes) ∉ ([] : Sbf)) ∧
    ∃ outs ctx, encryptRun CryptoLib.plain
        (aeadCtxInit (aeadKeyInit CryptoLib.plain .chacha20poly1305 [112, 119]) true
          (List.replicate 32 0)) [[7], [], [8, 9]] = some (outs, ctx) ∧
      outs.map (fun o => o.1.data) =
        [List.replicate 32 0 ++ [0, 1] ++ List.replicate 16 0 ++ 7 :: List.replicate 16 0, [],
          [0, 2] ++ List.replicate 16 0 ++ 8 :: 9 :: List.replicate 16 0] ∧
      (∃ rs dctx g', decryptRun CryptoLib.plain false []
          (aeadCtxInit (aeadKeyInit CryptoLib.plain .chacha20poly1305 [112, 119]) false [])
          (((outs.map fun o => o.1.data).flatten.map fun b => [b]).take 67) =
            some (rs, dctx, g') ∧ .error ∉ rs ∧ (rs.map Reply.plaintext).flatten = [7]) ∧
      ∃ rs dctx g', decryptRun CryptoLib.plain false []
          (aeadCtxInit (aeadKeyInit CryptoLib.plain .chacha20poly1305 [112, 119]) false [])
          ((outs.map fun o => o.1.data).flatten.map fun b => [b]) = some (rs, dctx, g') ∧
        (rs.map Reply.plaintext).flatten = [7, 8, 9] := by
  obtain ⟨outs, ctx, hrun, -, -, hall⟩ := tcp_round_trip CryptoLib.plain CryptoLib.plain_inverts
    (aeadKeyInit CryptoLib.plain .chacha20poly1305 [112, 119]) (List.replicate 32 0) rfl
    [[7], [], [8, 9]] (by decide) false [] Bool.noConfusion
  have hdata : outs.map (fun o => o.1.data) =
      [List.replicate 32 0 ++ [0, 1] ++ List.replicate 16 0 ++ 7 :: List.replicate 16 0, [],
        [0, 2] ++ List.replicate 16 0 ++ 8 :: 9 :: List.replicate 16 0] := by
    have h : (encryptRun CryptoLib.plain
        (aeadCtxInit (aeadKeyInit CryptoLib.plain .chacha20poly1305 [112, 119]) true
          (List.replicate 32 0)) [[7], [], [8, 9]]).map (fun x => x.1.map fun o => o.1.data) =
        some [List.replicate 32 0 ++ [0, 1] ++ List.replicate 16 0 ++ 7 :: List.replicate 16 0, [],
          [0, 2] ++ List.replicate 16 0 ++ 8 :: 9 :: List.replicate 16 0] := rfl
    rw [hrun] at h
    exact Option.some.inj h
  obtain ⟨hpart, hwhole⟩ := hall ((outs.map fun o => o.1.data).flatten.map fun b => [b])
    (by exact List.flatMap_singleton' _)
  obtain ⟨rs, dctx, g', hdrun, hrs, hplain⟩ := hpart 67
  refine ⟨CryptoLib.plain_inverts, rfl, by decide, Bool.noConfusion, outs, ctx, hrun, hdata,
    ⟨rs, dctx, g', hdrun, hrs, ?_⟩, hwhole⟩
  rw [hplain, hdata]
  rfl

/-- A client fed all of a run's stream, cut anyhow, answers no `CRYPTO_ERROR` and hands back
every plaintext. -/
theorem decryptRun_sealed {L : CryptoLib} (hinv : L.Inverts) {c : Cipher} {rand : Bytes}
    (hrand : rand.length = c.keyLen) {ps : List Bytes} (hps : ∀ p ∈ ps, p.length ≤ chunkSizeMask)
    (g : Sbf) {segs : List Bytes}
    (hsegs : segs.flatten =
      ((sealedBuffers L c (deriveSubkey L c rand) (some rand) 0 ps).map Buffer.data).flatten) :
    ∃ rs dctx g', decryptRun L false g (aeadCtxInit c false []) segs = some (rs, dctx, g') ∧
      .error ∉ rs ∧ (rs.map Reply.plaintext).flatten = ps.flatten := by
  obtain ⟨ms, rest, hdec, hms⟩ := referenceDecode_sealed_take hinv hrand ps hps segs.flatten.length
  rw [← hsegs, List.take_length] at hdec
  obtain ⟨rs, dctx, g', ms', hrun, hrs, hplain, ht⟩ :=
    @decryptRun_tracks L c false segs [] [] _ g (tracks_fresh L c) (fun _ h => Bool.noConfusion h)
      (by rw [List.nil_append, hdec]; exact Decoded.noConfusion)
  have hms' : ms' = ms := by
    have := ht.decode
    rw [List.nil_append, hdec] at this
    exact (Decoded.pending.inj this).1.symm
  have hlen : ((sealedBuffers L c (deriveSubkey L c rand) (some rand) 0 ps).map Buffer.data).length =
      ps.length := by rw [List.length_map, length_sealedBuffers]
  have hall := delivered_all (ps.zip
    ((sealedBuffers L c (deriveSubkey L c rand) (some rand) 0 ps).map Buffer.data))
  rw [List.map_snd_zip _ _ hlen.le, List.map_fst_zip _ _ hlen.ge] at hall
  exact ⟨rs, dctx, g', hrun, hrs, by rw [hplain, hms', hms, hsegs, hall]⟩

end ShadowAead

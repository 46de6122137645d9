import ShadowAead.Refinement
import Mathlib.Logic.Function.Basic
/-
# `ShadowAead.Replay` — one replay filter, many sessions and datagrams

A server built with `MODULE_REMOTE` keeps one replay filter for everything it decrypts under
its master cipher: every TCP connection's decrypt context consults and feeds it when its salt
is complete, and every datagram consults it and, once authenticated, feeds it.  `serve`
runs the server on any interleaving of segments and datagrams.

The statement is about the inputs: `accepted` lists, for every arrival answered
`CRYPTO_OK`, where it came from and the salt it carried, read off the bytes sent.  No salt
is listed with two origins.  The proof keeps an invariant `Guarded` over the server's state,
with a ghost list of claims: each connection that has taken its salt, and each datagram that
was accepted, claims its salt; every claimed salt is in the filter; and no salt is claimed
twice.  A claim is only ever made after the filter was checked, so a new claim is for a salt
no one has claimed.

What the filter compares is the whole salt, while a session's subkey reads only the salt's
first sixteen bytes: `tcp_replay_salt_tail` replays a session under a salt that differs from
the original past those bytes only.
-/

namespace ShadowAead

/-- What a server is handed next: a segment for TCP connection `conn`, or a datagram. -/
inductive Arrival where
  | tcp (conn : Nat) (segment : Bytes)
  | udp (datagram : Bytes)

/-- A server's decrypt state under one master cipher: the replay filter that all its TCP
sessions and datagrams share, and each connection's decrypt context. -/
structure Server where
  sbf : Sbf
  conns : Nat → CipherCtx

/-- A server that has seen nothing: an empty filter, and fresh decrypt contexts. -/
def Server.init (c : Cipher) : Server := ⟨[], fun _ => aeadCtxInit c false []⟩

/-- The server handles one arrival: `aead_decrypt` on the connection's context, or
`aead_decrypt_all` on the datagram, both against the shared filter. -/
def serverStep (L : CryptoLib) (c : Cipher) (s : Server) : Arrival → Option (Reply × Server)
  | .tcp i seg => (aeadDecrypt L true s.sbf (s.conns i) seg).map fun x =>
      (x.1, ⟨x.2.2, Function.update s.conns i x.2.1⟩)
  | .udp d => (aeadDecryptAll L true s.sbf c d).map fun x => (x.1, { s with sbf := x.2 })

/-- The server on a sequence of arrivals: the reply to each. -/
def serve (L : CryptoLib) (c : Cipher) : Server → List Arrival → Option (List Reply)
  | _, [] => some []
  | s, a :: as => do
    let (r, s) ← serverStep L c s a
    let rs ← serve L c s as
    return r :: rs

/-! ## What was accepted, read off the inputs -/

/-- Where a plaintext came from: a TCP connection, or the datagram that was arrival `k`. -/
inductive Origin where
  | conn (i : Nat)
  | datagram (k : Nat)

/-- `CRYPTO_OK`. -/
def Reply.isOk : Reply → Bool
  | .ok _ => true
  | _ => false

/-- The origin and salt of every arrival answered `CRYPTO_OK`.  A datagram's salt is its
first `key_len` bytes; a segment's is the first `key_len` bytes its connection has been
sent, this segment included.  `k` numbers the arrivals and `fed i` is what connection `i`
was sent before them. -/
def accepted (c : Cipher) :
    Nat → (Nat → Bytes) → List Arrival → List Reply → List (Origin × Bytes)
  | k, fed, .tcp i seg :: as, r :: rs =>
    (if r.isOk then [(.conn i, (fed i ++ seg).take c.keyLen)] else []) ++
      accepted c (k + 1) (Function.update fed i (fed i ++ seg)) as rs
  | k, fed, .udp d :: as, r :: rs =>
    (if r.isOk then [(.datagram k, d.take c.keyLen)] else []) ++ accepted c (k + 1) fed as rs
  | _, _, _, _ => []

/-! ## The invariant -/

/-- The server's state after connection `i` was sent `fed i`, with the salts in `claims`
claimed. -/
structure Guarded (c : Cipher) (fed : Nat → Bytes) (s : Server) (claims : List (Origin × Bytes)) :
    Prop where
  cipher : ∀ i, (s.conns i).cipher = c
  waiting : ∀ i, (s.conns i).init = false → (s.conns i).chunk = fed i
  owned : ∀ i, (s.conns i).init = true →
    c.keyLen < (fed i).length ∧ (.conn i, (fed i).take c.keyLen) ∈ claims
  filtered : ∀ q ∈ claims, q.2 ∈ s.sbf
  unique : ∀ q₁ ∈ claims, ∀ q₂ ∈ claims, q₁.2 = q₂.2 → q₁.1 = q₂.1

theorem guarded_init (c : Cipher) : Guarded c (fun _ => []) (Server.init c) [] where
  cipher _ := rfl
  waiting _ _ := rfl
  owned _ h := by cases h
  filtered _ h := by cases h
  unique _ h := by cases h

/-- Claiming a salt that is not in the filter, and adding it, keeps the claims unique. -/
theorem Guarded.claim {c : Cipher} {fed : Nat → Bytes} {s : Server} {claims : List (Origin × Bytes)}
    (hs : Guarded c fed s claims) {o : Origin} {salt : Bytes} (hnew : salt ∉ s.sbf) :
    (∀ q ∈ (o, salt) :: claims, q.2 ∈ salt :: s.sbf) ∧
      ∀ q₁ ∈ (o, salt) :: claims, ∀ q₂ ∈ (o, salt) :: claims, q₁.2 = q₂.2 → q₁.1 = q₂.1 := by
  have hfresh : ∀ q ∈ claims, q.2 ≠ salt := fun q hq h => hnew (h ▸ hs.filtered q hq)
  refine ⟨fun q hq => ?_, fun q₁ hq₁ q₂ hq₂ h => ?_⟩
  · rcases List.mem_cons.mp hq with rfl | hq
    · exact List.mem_cons_self _ _
    · exact List.mem_cons_of_mem _ (hs.filtered q hq)
  · rcases List.mem_cons.mp hq₁ with rfl | hq₁ <;> rcases List.mem_cons.mp hq₂ with rfl | hq₂
    · rfl
    · exact absurd h.symm (hfresh _ hq₂)
    · exact absurd h (hfresh _ hq₁)
    · exact hs.unique _ hq₁ _ hq₂ h

section Step

variable {L : CryptoLib} {c : Cipher} {fed : Nat → Bytes} {s : Server}
  {claims : List (Origin × Bytes)}

/-- A step that changes only connection `i`'s context and the filter keeps the invariant when
the new context and the new claims do. -/
theorem Guarded.update_conn (hs : Guarded c fed s claims) (i : Nat) (f : Bytes) (ctx' : CipherCtx)
    (g' : Sbf) {claims' : List (Origin × Bytes)} (hsub : claims ⊆ claims')
    (hcipher : ctx'.cipher = c) (hwait : ctx'.init = false → ctx'.chunk = f)
    (hown : ctx'.init = true → c.keyLen < f.length ∧ (.conn i, f.take c.keyLen) ∈ claims')
    (hfilt : ∀ q ∈ claims', q.2 ∈ g')
    (huniq : ∀ q₁ ∈ claims', ∀ q₂ ∈ claims', q₁.2 = q₂.2 → q₁.1 = q₂.1) :
    Guarded c (Function.update fed i f) ⟨g', Function.update s.conns i ctx'⟩ claims' where
  cipher j := by
    by_cases hj : j = i
    · subst hj; simpa using hcipher
    · simpa [Function.update_noteq hj] using hs.cipher j
  waiting j := by
    by_cases hj : j = i
    · subst hj; simpa using hwait
    · simpa [Function.update_noteq hj] using hs.waiting j
  owned j := by
    by_cases hj : j = i
    · subst hj; simpa using hown
    · simp only [Function.update_noteq hj]
      exact fun h => (hs.owned j h).imp_right (@hsub _)
  filtered := hfilt
  unique := huniq

/-- A segment for connection `i` keeps the invariant, and a plaintext it returns is claimed by
the connection under the salt it was sent. -/
theorem serverStep_tcp (hs : Guarded c fed s claims) (i : Nat) (seg : Bytes) {r : Reply}
    {s' : Server} (h : serverStep L c s (.tcp i seg) = some (r, s')) :
    ∃ claims', Guarded c (Function.update fed i (fed i ++ seg)) s' claims' ∧ claims ⊆ claims' ∧
      (r.isOk → (.conn i, (fed i ++ seg).take c.keyLen) ∈ claims') := by
  obtain ⟨⟨r₀, ctx', g'⟩, hcall, hx⟩ := Option.map_eq_some'.mp h
  cases hx
  dsimp only
  obtain ⟨hc, hcases⟩ := aeadDecrypt_remote_cases L s.sbf _ hcall
  rw [hs.cipher i] at hc hcases
  rcases hcases with ⟨hinit, hinit', rfl⟩ | ⟨hinit, hinit', hchunk, rfl, hnok⟩ |
    ⟨hinit, hinit', hlong, hnew, rfl⟩
  · obtain ⟨hlen, hmem⟩ := hs.owned i hinit
    have htake : (fed i ++ seg).take c.keyLen = (fed i).take c.keyLen :=
      List.take_append_of_le_length hlen.le
    refine ⟨claims, hs.update_conn i _ ctx' _ (List.Subset.refl _) hc
      (fun h => absurd (hinit'.symm.trans h) Bool.noConfusion)
      (fun _ => ⟨by simp only [List.length_append]; omega, htake ▸ hmem⟩) hs.filtered hs.unique,
      List.Subset.refl _, fun _ => htake ▸ hmem⟩
  · rw [hs.waiting i hinit] at hchunk
    refine ⟨claims, hs.update_conn i _ ctx' _ (List.Subset.refl _) hc (fun _ => hchunk)
      (fun h => absurd (hinit'.symm.trans h) Bool.noConfusion) hs.filtered hs.unique,
      List.Subset.refl _, fun hok => ?_⟩
    cases r₀ with
    | ok p => exact absurd rfl (hnok p)
    | _ => cases hok
  · rw [hs.waiting i hinit] at hlong hnew ⊢
    obtain ⟨hfilt, huniq⟩ := hs.claim (o := .conn i) hnew
    exact ⟨_, hs.update_conn i _ ctx' _ (List.subset_cons_self _ _) hc
      (fun h => absurd (hinit'.symm.trans h) Bool.noConfusion)
      (fun _ => ⟨hlong, List.mem_cons_self _ _⟩) hfilt huniq,
      List.subset_cons_self _ _, fun _ => List.mem_cons_self _ _⟩

/-- A datagram keeps the invariant, whatever its number `k`, and a plaintext it returns is
claimed by it under its salt. -/
theorem serverStep_udp (hs : Guarded c fed s claims) (k : Nat) (d : Bytes) {r : Reply}
    {s' : Server} (h : serverStep L c s (.udp d) = some (r, s')) :
    ∃ claims', Guarded c fed s' claims' ∧ claims ⊆ claims' ∧
      (r.isOk → (.datagram k, d.take c.keyLen) ∈ claims') := by
  obtain ⟨⟨r₀, g'⟩, hcall, hx⟩ := Option.map_eq_some'.mp h
  cases hx
  dsimp only
  rcases aeadDecryptAll_sbf L s.sbf c d hcall with ⟨rfl, hnok⟩ | ⟨p, rfl, hnew, rfl⟩
  · refine ⟨claims, hs, List.Subset.refl _, fun hok => ?_⟩
    cases r₀ with
    | ok p => exact absurd rfl (hnok p)
    | _ => cases hok
  · obtain ⟨hfilt, huniq⟩ := hs.claim (o := .datagram k) hnew
    exact ⟨_, ⟨hs.cipher, hs.waiting,
      fun i h => (hs.owned i h).imp_right (List.mem_cons_of_mem _), hfilt, huniq⟩,
      List.subset_cons_self _ _, fun _ => List.mem_cons_self _ _⟩

end Step

/-! ## Runs -/

theorem serverStep_isSome (L : CryptoLib) (c : Cipher) (s : Server) (a : Arrival) :
    (serverStep L c s a).isSome := by
  cases a with
  | tcp i seg =>
    rw [serverStep, Option.isSome_map']
    exact aeadDecrypt_isSome L true s.sbf seg (s.conns i)
  | udp d =>
    rw [serverStep, Option.isSome_map']
    exact aeadDecryptAll_isSome L true s.sbf c d

/-- A run from a guarded state answers every arrival, and every plaintext it returns is
claimed, under claims that stay unique. -/
theorem serve_guarded (L : CryptoLib) (c : Cipher) :
    ∀ (as : List Arrival) (k : Nat) (fed : Nat → Bytes) (s : Server)
      (claims : List (Origin × Bytes)), Guarded c fed s claims →
      ∃ rs claims', serve L c s as = some rs ∧ claims ⊆ claims' ∧
        (∀ q ∈ accepted c k fed as rs, q ∈ claims') ∧
        ∀ q₁ ∈ claims', ∀ q₂ ∈ claims', q₁.2 = q₂.2 → q₁.1 = q₂.1
  | [], _, _, _, claims, hs => ⟨[], claims, rfl, List.Subset.refl _, by simp [accepted], hs.unique⟩
  | a :: as, k, fed, s, claims, hs => by
    obtain ⟨⟨r, s₁⟩, hstep⟩ := Option.isSome_iff_exists.mp (serverStep_isSome L c s a)
    -- one step: the invariant, and the claim the arrival adds when it is answered `CRYPTO_OK`
    obtain ⟨fed₁, o, salt, claims₁, hs₁, hsub₁, hok₁, hacc₁⟩ : ∃ fed₁ o salt claims₁,
        Guarded c fed₁ s₁ claims₁ ∧ claims ⊆ claims₁ ∧ (r.isOk → (o, salt) ∈ claims₁) ∧
        ∀ rs, accepted c k fed (a :: as) (r :: rs) =
          (if r.isOk then [(o, salt)] else []) ++ accepted c (k + 1) fed₁ as rs := by
      cases a with
      | tcp i seg =>
        obtain ⟨claims₁, hs₁, hsub₁, hok₁⟩ := serverStep_tcp hs i seg hstep
        exact ⟨_, _, _, claims₁, hs₁, hsub₁, hok₁, fun _ => rfl⟩
      | udp d =>
        obtain ⟨claims₁, hs₁, hsub₁, hok₁⟩ := serverStep_udp hs k d hstep
        exact ⟨_, _, _, claims₁, hs₁, hsub₁, hok₁, fun _ => rfl⟩
    obtain ⟨rs, claims', hrun, hsub', hacc, huniq⟩ := serve_guarded L c as (k + 1) fed₁ s₁ claims₁ hs₁
    refine ⟨r :: rs, claims', by simp [serve, hstep, hrun], hsub₁.trans hsub', fun q hq => ?_,
      huniq⟩
    rw [hacc₁, List.mem_append] at hq
    rcases hq with hq | hq
    · split at hq
      · rw [List.mem_singleton.mp hq]
        exact hsub' (hok₁ ‹_›)
      · cases hq
    · exact hacc q hq

/-- Server-role replay rejection.  Under one master cipher, on any interleaving of segments
for any number of TCP connections and of datagrams, sharing one replay filter that holds
exactly the salts it was given, no salt is accepted from two origins: two arrivals answered
`CRYPTO_OK` that carry the same salt come from the same connection.  And a datagram refused
with `CRYPTO_ERROR` leaves the filter as it was. -/
theorem replay_rejected (L : CryptoLib) (c : Cipher) (as : List Arrival) :
    (∃ rs, serve L c (Server.init c) as = some rs ∧
      ∀ q₁ ∈ accepted c 0 (fun _ => []) as rs, ∀ q₂ ∈ accepted c 0 (fun _ => []) as rs,
        q₁.2 = q₂.2 → q₁.1 = q₂.1) ∧
    ∀ g d g', aeadDecryptAll L true g c d = some (.error, g') → g' = g := by
  refine ⟨?_, fun g d g' h => ?_⟩
  · obtain ⟨rs, claims', hrun, -, hacc, huniq⟩ := serve_guarded L c as 0 _ _ [] (guarded_init c)
    exact ⟨rs, hrun, fun q₁ h₁ q₂ h₂ => huniq q₁ (hacc q₁ h₁) q₂ (hacc q₂ h₂)⟩
  · rcases aeadDecryptAll_sbf L g c d h with ⟨rfl, -⟩ | ⟨p, hp, -⟩
    · rfl
    · cases hp

/-- A datagram of one byte `7` under `aes-128-gcm`, keyed from the password `pw` and sealed
under the zero salt, handed to a fresh server twice over the transparent library: the first is
accepted, the replay is refused, and the salt is accepted from the first datagram only. -/
theorem replay_rejected_replayed_datagram :
    serve CryptoLib.plain (aeadKeyInit CryptoLib.plain .aes128gcm [112, 119])
        (Server.init (aeadKeyInit CryptoLib.plain .aes128gcm [112, 119]))
        (List.replicate 2 (.udp (List.replicate 16 0 ++ 7 :: List.replicate 16 0))) =
      some [.ok [7], .error] ∧
    ∀ q₁ ∈ accepted (aeadKeyInit CryptoLib.plain .aes128gcm [112, 119]) 0 (fun _ => [])
        (List.replicate 2 (.udp (List.replicate 16 0 ++ 7 :: List.replicate 16 0))) [.ok [7], .error],
      ∀ q₂ ∈ accepted (aeadKeyInit CryptoLib.plain .aes128gcm [112, 119]) 0 (fun _ => [])
        (List.replicate 2 (.udp (List.replicate 16 0 ++ 7 :: List.replicate 16 0))) [.ok [7], .error],
      q₁.2 = q₂.2 → q₁.1 = q₂.1 := by
  have hrun : serve CryptoLib.plain (aeadKeyInit CryptoLib.plain .aes128gcm [112, 119])
      (Server.init (aeadKeyInit CryptoLib.plain .aes128gcm [112, 119]))
      (List.replicate 2 (.udp (List.replicate 16 0 ++ 7 :: List.replicate 16 0))) =
      some [.ok [7], .error] := rfl
  obtain ⟨rs, h, huniq⟩ := (replay_rejected CryptoLib.plain
    (aeadKeyInit CryptoLib.plain .aes128gcm [112, 119])
    (List.replicate 2 (.udp (List.replicate 16 0 ++ 7 :: List.replicate 16 0)))).1
  rw [hrun, Option.some.injEq] at h
  exact ⟨hrun, h ▸ huniq⟩

/-! ## What the filter keys on -/

/-- A TCP session is filtered on its whole salt, but its subkey is derived from the salt's
first sixteen bytes.  Let a server accept, in one segment, a session whose salt it had not
seen.  The same bytes with the salt's bytes past the sixteenth replaced, so that the salt is
one the filter does not hold, are accepted again as a new session, to the same plaintext: for
methods with 32-byte salts the filter stops only replays that keep the whole salt. -/
theorem tcp_replay_salt_tail (L : CryptoLib) (c : Cipher) (g : Sbf) (S : Bytes)
    (hS : referenceDecode L c S ≠ .error) (hlong : c.keyLen < S.length)
    (hnew : S.take c.keyLen ∉ g) (salt : Bytes) (hsalt : salt.length = c.keyLen)
    (hhead : salt.take 16 = S.take 16) (hfresh : salt ∉ S.take c.keyLen :: g) :
    ∃ r₁ ctx₁ r₂ ctx₂,
      aeadDecrypt L true g (aeadCtxInit c false []) S = some (r₁, ctx₁, S.take c.keyLen :: g) ∧
      aeadDecrypt L true (S.take c.keyLen :: g) (aeadCtxInit c false []) (salt ++ S.drop c.keyLen) =
        some (r₂, ctx₂, salt :: S.take c.keyLen :: g) ∧
      r₁ ≠ .error ∧ r₂ ≠ .error ∧ r₁.plaintext = r₂.plaintext := by
  have hsame := referenceDecode_salt_tail L c hlong hsalt hhead
  have hlong' : c.keyLen < ([] ++ (salt ++ S.drop c.keyLen)).length := by
    simp only [List.nil_append, List.length_append, List.length_drop]
    omega
  obtain ⟨r₁, ctx₁, ms₁, hcall₁, hr₁, hp₁, ht₁⟩ :=
    @aeadDecrypt_tracks L c true g [] [] _ (tracks_fresh L c) S
      (fun _ _ _ => by simpa using hnew) (by simpa using hS)
  obtain ⟨r₂, ctx₂, ms₂, hcall₂, hr₂, hp₂, ht₂⟩ :=
    @aeadDecrypt_tracks L c true (S.take c.keyLen :: g) [] [] _ (tracks_fresh L c)
      (salt ++ S.drop c.keyLen)
      (fun _ _ _ => by simpa [List.take_left' hsalt] using hfresh) (by simpa [hsame] using hS)
  rw [if_pos ⟨rfl, Nat.zero_le _, by simpa using hlong⟩] at hcall₁
  rw [if_pos ⟨rfl, Nat.zero_le _, hlong'⟩, List.nil_append, List.take_left' hsalt] at hcall₂
  have hms : ms₁ = ms₂ := by
    have h₁ := ht₁.decode
    have h₂ := ht₂.decode
    rw [List.nil_append, List.nil_append] at h₁ h₂
    rw [hsame, h₁] at h₂
    exact (Decoded.pending.inj h₂).1
  exact ⟨r₁, ctx₁, r₂, ctx₂, by simpa using hcall₁, hcall₂, hr₁, hr₂, by rw [hp₁, hp₂, hms]⟩

/-- A `chacha20-poly1305` session of one chunk holding the byte `7`, keyed from the password
`pw`, over the transparent library, under the zero salt, then under the salt whose last sixteen bytes are `1`. -/
theorem tcp_replay_salt_tail_chacha :
    referenceDecode CryptoLib.plain (aeadKeyInit CryptoLib.plain .chacha20poly1305 [112, 119])
        (List.replicate 33 0 ++ 1 :: List.replicate 16 0 ++ 7 :: List.replicate 16 0) ≠ .error ∧
      32 < (List.replicate 33 0 ++ 1 :: List.replicate 16 0 ++ 7 :: List.replicate 16 0 : Bytes).length ∧
      (List.replicate 16 0 ++ List.replicate 16 1 : Bytes).take 16 =
        (List.replicate 33 0 ++ 1 :: List.replicate 16 0 ++ 7 :: List.replicate 16 0 : Bytes).take 16 ∧
      (List.replicate 16 0 ++ List.replicate 16 1 : Bytes) ∉ [(List.replicate 32 0 : Bytes)] ∧
      ∃ r₁ ctx₁ r₂ ctx₂,
        aeadDecrypt CryptoLib.plain true [] (aeadCtxInit (aeadKeyInit CryptoLib.plain .chacha20poly1305 [112, 119]) false [])
            (List.replicate 33 0 ++ 1 :: List.replicate 16 0 ++ 7 :: List.replicate 16 0) =
          some (r₁, ctx₁, [List.replicate 32 0]) ∧
        aeadDecrypt CryptoLib.plain true [List.replicate 32 0]
            (aeadCtxInit (aeadKeyInit CryptoLib.plain .chacha20poly1305 [112, 119]) false [])
            (List.replicate 16 0 ++ List.replicate 16 1 ++
              0 :: 1 :: List.replicate 16 0 ++ 7 :: List.replicate 16 0) =
          some (r₂, ctx₂, [List.replicate 16 0 ++ List.replicate 16 1, List.replicate 32 0]) ∧
        r₁ ≠ .error ∧ r₂ ≠ .error ∧ r₁.plaintext = r₂.plaintext := by
  have h0 : decodeStep CryptoLib.plain (aeadKeyInit CryptoLib.plain .chacha20poly1305 [112, 119])
      (deriveSubkey CryptoLib.plain (aeadKeyInit CryptoLib.plain .chacha20poly1305 [112, 119]) (List.replicate 32 0)) 0
      (0 :: 1 :: List.replicate 16 0 ++ 7 :: List.replicate 16 0) = .chunk [7] [] := rfl
  have hS : referenceDecode CryptoLib.plain (aeadKeyInit CryptoLib.plain .chacha20poly1305 [112, 119])
      (List.replicate 33 0 ++ 1 :: List.replicate 16 0 ++ 7 :: List.replicate 16 0) ≠ .error := by
    rw [referenceDecode, if_neg (by decide)]
    show decodeChunks CryptoLib.plain (aeadKeyInit CryptoLib.plain .chacha20poly1305 [112, 119])
      (deriveSubkey CryptoLib.plain (aeadKeyInit CryptoLib.plain .chacha20poly1305 [112, 119]) (List.replicate 32 0)) 0
      (0 :: 1 :: List.replicate 16 0 ++ 7 :: List.replicate 16 0) ≠ .error
    rw [decodeChunks_of_chunk h0, decodeChunks_nil]
    simp
  have hhead : (List.replicate 16 0 ++ List.replicate 16 1 : Bytes).take 16 =
      (List.replicate 33 0 ++ 1 :: List.replicate 16 0 ++ 7 :: List.replicate 16 0 : Bytes).take 16 := by
    decide
  have hfresh : (List.replicate 16 0 ++ List.replicate 16 1 : Bytes) ∉ [(List.replicate 32 0 : Bytes)] := by
    decide
  exact ⟨hS, by decide, hhead, hfresh,
    tcp_replay_salt_tail CryptoLib.plain (aeadKeyInit CryptoLib.plain .chacha20poly1305 [112, 119]) [] _ hS (by decide)
      (List.not_mem_nil _) (List.replicate 16 0 ++ List.replicate 16 1) (by decide) hhead hfresh⟩

end ShadowAead

import ShadowAead.Replay
import ShadowAead.RoundTrip
/-
# `ShadowAead.Isolation` — what one connection sees of the rest of the traffic

The connections of a server share one thing, the replay filter; each has its own decrypt
context.  So the rest of the traffic reaches connection `i` only through the filter's verdict
on `i`'s salt, at the call that completes it.

`aeadDecrypt_remote_eq`: unless the filter holds the salt a call completes, a server's call
does what a client's call on the same context does, and adds that salt to the filter.
`Vetoed` is the state a refused connection is left in: `init` is still unset and the buffer
starts with a salt the filter holds.  Every later call refuses the same salt again
(`aeadDecrypt_vetoed`), since no arrival takes a salt out of the filter
(`serverStep_sbf_subset`).

`serveState` is the server's state part-way through a run, and `serve_at` reads the reply to
one arrival off the state the arrivals before it leave.  Along a run the filter holds the salt
of every connection that got past one (`serveState_salt_mem`), and no salt that nothing
brought (`serveState_not_mem`).

`tcp_connection_isolated` puts these together over any interleaving of segments for any
connections and of datagrams: connection `i` is answered what a lone client decrypter fed
`i`'s segments answers, up to the call that completes `i`'s salt.  It is refused there exactly
when the filter held that salt at that arrival (`SaltHeld`), and then that call and every later
one are answered `CRYPTO_ERROR`.

When nothing else brings `i`'s salt, the filter does not hold it when `i` completes it
(`not_saltHeld_of_fresh`): `i` is answered exactly what the lone client is answered
(`tcp_connection_fresh_salt`), and so a stream `aead_encrypt` sends comes back whole through
a busy server (`tcp_server_round_trip`).  A datagram is in the same position
(`udp_server_round_trip`): one that `aead_encrypt_all` seals under a salt nothing before it
brought is accepted, and one whose salt a TCP session already got past is refused.

## What this is not

It is not about the filter `fs_sbf` the code links against, a scaling Bloom filter: the model
keeps the exact set of salts added (`fsSbfCheck`).  A refusal proved here is one the real
filter makes too, as long as it reports every salt it was given.  An acceptance proved here
(`tcp_connection_fresh_salt`, `tcp_server_round_trip`, the first half of
`udp_server_round_trip`) holds of the real filter only while it reports no false positive on
the salt in question.
-/

namespace ShadowAead

/-! ## One connection's view of the arrivals -/

/-- The segments connection `i` is sent, in order. -/
def connSegs (i : Nat) : List Arrival → List Bytes
  | [] => []
  | .tcp j seg :: as => if j = i then seg :: connSegs i as else connSegs i as
  | .udp _ :: as => connSegs i as

/-- The replies to connection `i`'s segments, in order, out of the replies to all arrivals. -/
def connReplies (i : Nat) : List Arrival → List Reply → List Reply
  | .tcp j _ :: as, r :: rs => if j = i then r :: connReplies i as rs else connReplies i as rs
  | .udp _ :: as, _ :: rs => connReplies i as rs
  | _, _ => []

section View

variable {i : Nat} {a : Arrival}

@[simp] theorem connSegs_nil (i : Nat) : connSegs i [] = [] := rfl

@[simp] theorem connSegs_own (i : Nat) (seg : Bytes) (as : List Arrival) :
    connSegs i (.tcp i seg :: as) = seg :: connSegs i as := if_pos rfl

@[simp] theorem connReplies_own (i : Nat) (seg : Bytes) (as : List Arrival) (r : Reply)
    (rs : List Reply) : connReplies i (.tcp i seg :: as) (r :: rs) = r :: connReplies i as rs :=
  if_pos rfl

theorem connSegs_other (ha : ∀ seg, a ≠ .tcp i seg) (as : List Arrival) :
    connSegs i (a :: as) = connSegs i as := by
  cases a with
  | tcp j seg => exact if_neg fun h => ha seg (by rw [h])
  | udp d => rfl

theorem connSegs_append (i : Nat) (as bs : List Arrival) :
    connSegs i (as ++ bs) = connSegs i as ++ connSegs i bs := by
  induction as with
  | nil => rfl
  | cons a as ih =>
    cases a with
    | tcp j seg => by_cases hj : j = i <;> simp [connSegs, hj, ih]
    | udp d => simp [connSegs, ih]

theorem connReplies_other (ha : ∀ seg, a ≠ .tcp i seg) (as : List Arrival) (r : Reply)
    (rs : List Reply) : connReplies i (a :: as) (r :: rs) = connReplies i as rs := by
  cases a with
  | tcp j seg => exact if_neg fun h => ha seg (by rw [h])
  | udp d => rfl

/-- What each connection has been sent, once arrival `a` is in. -/
def feed (fed : Nat → Bytes) : Arrival → Nat → Bytes
  | .tcp i seg => Function.update fed i (fed i ++ seg)
  | .udp _ => fed

/-- What a connection has been sent and will be sent, taken together, does not move as the
arrivals go in. -/
theorem feed_connSegs (fed : Nat → Bytes) (a : Arrival) (as : List Arrival) (j : Nat) :
    feed fed a j ++ (connSegs j as).flatten = fed j ++ (connSegs j (a :: as)).flatten := by
  cases a with
  | tcp i seg =>
    by_cases hj : i = j
    · subst hj
      simp [feed]
    · simp [feed, connSegs, hj, Function.update_noteq (Ne.symm hj)]
  | udp d => rfl

/-- Once connection `i` has been sent more than `k` bytes, its first `k` bytes are fixed,
whatever it is sent after. -/
theorem take_connSegs_own {k : Nat} {F seg : Bytes} (as : List Arrival)
    (h : k < (F ++ seg).length) :
    k < (F ++ (connSegs i (.tcp i seg :: as)).flatten).length ∧
      (F ++ (connSegs i (.tcp i seg :: as)).flatten).take k = (F ++ seg).take k := by
  rw [connSegs_own, List.flatten_cons, ← List.append_assoc, List.length_append,
    List.take_append_of_le_length h.le]
  exact ⟨by omega, rfl⟩

/-- Once the first `m` arrivals have sent connection `i` more than `k` bytes, its first `k`
bytes are read off those arrivals. -/
theorem take_connSegs_take {k m : Nat} {as : List Arrival}
    (h : k < (connSegs i (as.take m)).flatten.length) :
    k < (connSegs i as).flatten.length ∧
      (connSegs i as).flatten.take k = (connSegs i (as.take m)).flatten.take k := by
  rw [← List.take_append_drop m as, connSegs_append, List.flatten_append, List.length_append,
    List.take_append_of_le_length h.le, List.take_append_drop]
  exact ⟨by omega, rfl⟩

end View

/-! ## The server's step, seen from one connection -/

section Step

variable {L : CryptoLib} {c : Cipher} {s s' : Server} {a : Arrival} {r : Reply}

/-- What an arrival adds to the filter: nothing, or the salt it brings.  A segment for a
waiting connection brings the first `key_len` bytes of its buffer and the segment, once there
are more; a datagram brings its own first `key_len` bytes. -/
theorem serverStep_sbf_add (h : serverStep L c s a = some (r, s')) :
    s'.sbf = s.sbf ∨ ∃ x, s'.sbf = x :: s.sbf ∧
      ((∃ j seg, a = .tcp j seg ∧ (s.conns j).init = false ∧
          (s.conns j).cipher.keyLen < ((s.conns j).chunk ++ seg).length ∧
          x = ((s.conns j).chunk ++ seg).take (s.conns j).cipher.keyLen) ∨
        ∃ d, a = .udp d ∧ x = d.take c.keyLen) := by
  cases a with
  | tcp j seg =>
    obtain ⟨⟨r₀, ctx', g'⟩, hcall, hx⟩ := Option.map_eq_some'.mp h
    cases hx
    rcases (aeadDecrypt_remote_cases L s.sbf _ hcall).2 with
      ⟨-, -, rfl⟩ | ⟨-, -, -, rfl, -⟩ | ⟨hinit, -, hlong, -, rfl⟩
    · exact .inl rfl
    · exact .inl rfl
    · exact .inr ⟨_, rfl, .inl ⟨j, seg, rfl, hinit, hlong, rfl⟩⟩
  | udp d =>
    obtain ⟨⟨r₀, g'⟩, hcall, hx⟩ := Option.map_eq_some'.mp h
    cases hx
    rcases aeadDecryptAll_sbf L s.sbf c d hcall with ⟨rfl, -⟩ | ⟨p, -, -, rfl⟩
    · exact .inl rfl
    · exact .inr ⟨_, rfl, .inr ⟨d, rfl, rfl⟩⟩

/-- No arrival takes a salt out of the filter. -/
theorem serverStep_sbf_subset (h : serverStep L c s a = some (r, s')) : s.sbf ⊆ s'.sbf := by
  rcases serverStep_sbf_add h with h' | ⟨x, h', -⟩ <;> rw [h']
  · exact List.Subset.refl _
  · exact List.subset_cons_self _ _

/-- An arrival that is not for connection `i` leaves `i`'s context as it was. -/
theorem serverStep_other {i : Nat} (h : serverStep L c s a = some (r, s'))
    (ha : ∀ seg, a ≠ .tcp i seg) : s'.conns i = s.conns i := by
  cases a with
  | tcp j seg =>
    obtain ⟨x, -, hx⟩ := Option.map_eq_some'.mp h
    cases hx
    exact Function.update_noteq (fun h => ha seg (by rw [h])) _ _
  | udp d =>
    obtain ⟨x, -, hx⟩ := Option.map_eq_some'.mp h
    cases hx
    rfl

variable {fed : Nat → Bytes} {claims : List (Origin × Bytes)}

theorem Guarded.step (hs : Guarded c fed s claims) (h : serverStep L c s a = some (r, s')) :
    ∃ claims', Guarded c (feed fed a) s' claims' := by
  cases a with
  | tcp j seg =>
    obtain ⟨claims', hs', -⟩ := serverStep_tcp hs j seg h
    exact ⟨claims', hs'⟩
  | udp d =>
    obtain ⟨claims', hs', -⟩ := serverStep_udp hs 0 d h
    exact ⟨claims', hs'⟩

/-- A salt the arrival does not bring stays out of the filter.  What a segment for `j` brings
is read off all that `j` has been and will be sent. -/
theorem serverStep_sbf_not_mem (hs : Guarded c fed s claims) (h : serverStep L c s a = some (r, s'))
    {x : Bytes} (hx : x ∉ s.sbf) (as : List Arrival)
    (htcp : ∀ j, (∃ seg, a = .tcp j seg) →
      c.keyLen < (fed j ++ (connSegs j (a :: as)).flatten).length →
      (fed j ++ (connSegs j (a :: as)).flatten).take c.keyLen ≠ x)
    (hudp : ∀ d, a = .udp d → d.take c.keyLen ≠ x) : x ∉ s'.sbf := by
  rcases serverStep_sbf_add h with h' | ⟨y, h', ⟨j, seg, rfl, hinit, hlong, rfl⟩ | ⟨d, rfl, rfl⟩⟩
  · rwa [h']
  · rw [hs.waiting j hinit, hs.cipher j] at hlong h'
    obtain ⟨hlong', hsalt⟩ := take_connSegs_own as hlong
    rw [h', List.mem_cons, not_or]
    exact ⟨fun e => htcp j ⟨seg, rfl⟩ hlong' (hsalt.trans e.symm), hx⟩
  · rw [h', List.mem_cons, not_or]
    exact ⟨fun e => hudp d rfl e.symm, hx⟩

end Step

/-! ## A refused salt -/

/-- The state a server's connection is left in when the filter `g` refuses its salt: the salt
is not taken, and the buffer starts with a whole salt the filter holds. -/
def Vetoed (g : Sbf) (ctx : CipherCtx) : Prop :=
  ctx.init = false ∧ ctx.cipher.keyLen < ctx.chunk.length ∧ ctx.chunk.take ctx.cipher.keyLen ∈ g

instance (g : Sbf) (ctx : CipherCtx) : Decidable (Vetoed g ctx) :=
  inferInstanceAs (Decidable (_ ∧ _ ∧ _))

section Vetoed

variable {g g' : Sbf} {ctx : CipherCtx}

theorem Vetoed.mono (hv : Vetoed g ctx) (hg : g ⊆ g') : Vetoed g' ctx :=
  ⟨hv.1, hv.2.1, hg hv.2.2⟩

/-- More bytes behind a refused salt leave it refused. -/
theorem Vetoed.append (hv : Vetoed g ctx) (X : Bytes) :
    Vetoed g { ctx with chunk := ctx.chunk ++ X } := by
  have hlong := hv.2.1
  refine ⟨hv.1, ?_, ?_⟩
  · simp only [List.length_append]
    omega
  · rw [List.take_append_of_le_length hv.2.1.le]
    exact hv.2.2

/-- Read off a context that buffers all it was sent, a veto is on a salt made of what was sent
and the segment. -/
theorem Vetoed.waiting {c : Cipher} {F X : Bytes} (hv : Vetoed g { ctx with chunk := ctx.chunk ++ X })
    (hc : ctx.cipher = c) (hw : ctx.init = false → ctx.chunk = F) :
    ctx.init = false ∧ c.keyLen < (F ++ X).length ∧ (F ++ X).take c.keyLen ∈ g := by
  obtain ⟨hinit, hlong, hmem⟩ := hv
  have hlong' : ctx.cipher.keyLen < (ctx.chunk ++ X).length := hlong
  have hmem' : (ctx.chunk ++ X).take ctx.cipher.keyLen ∈ g := hmem
  rw [hw hinit, hc] at hlong' hmem'
  exact ⟨hinit, hlong', hmem'⟩

/-- A server's call that completes a salt the filter holds answers `CRYPTO_ERROR`, leaves the
filter as it was, and leaves the connection vetoed. -/
theorem aeadDecrypt_vetoed (L : CryptoLib) (X : Bytes)
    (hv : Vetoed g { ctx with chunk := ctx.chunk ++ X }) :
    ∃ ctx', aeadDecrypt L true g ctx X = some (.error, ctx', g) ∧ Vetoed g ctx' :=
  ⟨saltCopied L ctx (ctx.chunk ++ X), by
    rw [@aeadDecrypt_salt L true g ctx X hv.1 hv.2.1, if_pos (by simpa [fsSbfCheck] using hv.2.2)],
    hv⟩

/-- Unless the filter holds the salt it completes, a server's call does what a client's call on
the same context does, whatever the client's filter, and adds that salt to the server's. -/
theorem aeadDecrypt_remote_eq (L : CryptoLib) (g gC : Sbf) (ctx : CipherCtx) (X : Bytes)
    (hv : ¬Vetoed g { ctx with chunk := ctx.chunk ++ X }) :
    aeadDecrypt L true g ctx X = (aeadDecrypt L false gC ctx X).map fun x =>
      (x.1, x.2.1, if ctx.init = false ∧ ctx.cipher.keyLen < (ctx.chunk ++ X).length then
        fsSbfAdd g ((ctx.chunk ++ X).take ctx.cipher.keyLen) else g) := by
  cases hinit : ctx.init
  case true =>
    simp [aeadDecrypt_init L _ _ X hinit, Option.map_map, Function.comp_def]
  case false =>
    by_cases hs : (ctx.chunk ++ X).length ≤ ctx.cipher.keyLen
    · have hs' : ¬ctx.cipher.keyLen < ctx.chunk.length + X.length := by
        simpa using hs
      simp [aeadDecrypt_wait L _ _ X hinit hs, hs']
    have hs' : ctx.cipher.keyLen < ctx.chunk.length + X.length := by simpa using hs
    have hnew : fsSbfCheck g ((ctx.chunk ++ X).take ctx.cipher.keyLen) = false := by
      simpa [fsSbfCheck, Vetoed, hinit, hs'] using hv
    rw [aeadDecrypt_salt L true g X hinit (Nat.lt_of_not_le hs),
      aeadDecrypt_salt L false gC X hinit (Nat.lt_of_not_le hs)]
    simp [hnew, Option.map_map, Function.comp_def, hs']

/-- A server's call that completes the salt leaves that salt in the filter: refused because the
filter held it, or taken and added. -/
theorem aeadDecrypt_salt_mem (L : CryptoLib) {X : Bytes} {r : Reply} {ctx' : CipherCtx}
    (hinit : ctx.init = false) (hlong : ctx.cipher.keyLen < (ctx.chunk ++ X).length)
    (h : aeadDecrypt L true g ctx X = some (r, ctx', g')) :
    (ctx.chunk ++ X).take ctx.cipher.keyLen ∈ g' := by
  by_cases hv : Vetoed g { ctx with chunk := ctx.chunk ++ X }
  · obtain ⟨ctx'', hcall, -⟩ := aeadDecrypt_vetoed L X hv
    rw [hcall] at h
    cases h
    exact hv.2.2
  · rw [aeadDecrypt_remote_eq L g [] ctx X hv, if_pos ⟨hinit, hlong⟩] at h
    obtain ⟨x, -, hx⟩ := Option.map_eq_some'.mp h
    rw [← (Prod.mk.inj (Prod.mk.inj hx).2).2]
    exact List.mem_cons_self _ _

end Vetoed

/-! ## A lone client -/

/-- A client decrypt context that has been fed `F`: it has taken the salt exactly when more
than `key_len` bytes came, and until then it buffers them all. -/
structure Fed (c : Cipher) (F : Bytes) (ctx : CipherCtx) : Prop where
  cipher : ctx.cipher = c
  init : ctx.init = decide (c.keyLen < F.length)
  waiting : ctx.init = false → ctx.chunk = F

theorem fed_fresh (c : Cipher) : Fed c [] (aeadCtxInit c false []) :=
  ⟨rfl, by simp, fun _ => rfl⟩

/-- A client's call returns, keeps its filter, and keeps `Fed`. -/
theorem Fed.call (L : CryptoLib) {c : Cipher} {F : Bytes} {ctx : CipherCtx} (hf : Fed c F ctx)
    (g : Sbf) (X : Bytes) :
    ∃ r ctx', aeadDecrypt L false g ctx X = some (r, ctx', g) ∧ Fed c (F ++ X) ctx' := by
  obtain ⟨⟨r, ctx', g'⟩, h⟩ := Option.isSome_iff_exists.mp (aeadDecrypt_isSome L false g X ctx)
  obtain ⟨rfl, hc, hi, hw⟩ := aeadDecrypt_local_cases L g X h
  refine ⟨r, ctx', h, hc.trans hf.cipher, ?_, fun h' => ?_⟩
  · cases hinit : ctx.init
    · rw [hi, hinit, hf.waiting hinit, hf.cipher, Bool.false_or]
    · have hF : c.keyLen < F.length := by simpa [hinit] using hf.init.symm
      rw [hi, hinit, Bool.true_or, eq_comm, decide_eq_true_iff, List.length_append]
      omega
  · have hinit : ctx.init = false := (Bool.or_eq_false_iff.mp (hi.symm.trans h')).1
    rw [hw h', hf.waiting hinit]

/-- A context that has been fed `F`, no more than `key_len` bytes, is refused the salt that
`F` and a segment complete when the filter holds it. -/
theorem Fed.vetoed {c : Cipher} {F X : Bytes} {ctx : CipherCtx} {g : Sbf} (hf : Fed c F ctx)
    (hF : F.length ≤ c.keyLen) (hlong : c.keyLen < (F ++ X).length)
    (hmem : (F ++ X).take c.keyLen ∈ g) : Vetoed g { ctx with chunk := ctx.chunk ++ X } := by
  have hinit : ctx.init = false := by simpa [hf.init] using hF
  refine ⟨hinit, ?_, ?_⟩ <;> simp only [hf.waiting hinit, hf.cipher] <;> assumption

/-! ## The server's state part-way through a run -/

/-- The server's state once it has handled the arrivals `as`, in order. -/
def serveState (L : CryptoLib) (c : Cipher) : Server → List Arrival → Option Server
  | s, [] => some s
  | s, a :: as => do
    let (_, s) ← serverStep L c s a
    serveState L c s as

section State

variable {L : CryptoLib} {c : Cipher} {s s₁ : Server} {a : Arrival} {r : Reply}

theorem serve_cons (h : serverStep L c s a = some (r, s₁)) (as : List Arrival) :
    serve L c s (a :: as) = (serve L c s₁ as).map (r :: ·) := by
  cases hrun : serve L c s₁ as <;> simp [serve, h, hrun]

theorem serveState_cons (h : serverStep L c s a = some (r, s₁)) (as : List Arrival) :
    serveState L c s (a :: as) = serveState L c s₁ as := by
  simp [serveState, h]

variable (L c) in
/-- A run splits at any point: the replies to `pre ++ post` are those to `pre`, then those the
server gives `post` from the state `pre` leaves it in. -/
theorem serve_append : ∀ (pre post : List Arrival) (s : Server),
    ∃ rs s', serve L c s pre = some rs ∧ serveState L c s pre = some s' ∧
      rs.length = pre.length ∧ serve L c s (pre ++ post) = (serve L c s' post).map (rs ++ ·)
  | [], post, s => ⟨[], s, rfl, rfl, rfl, by simp⟩
  | a :: pre, post, s => by
    obtain ⟨⟨r, s₁⟩, hstep⟩ := Option.isSome_iff_exists.mp (serverStep_isSome L c s a)
    obtain ⟨rs, s', hrun, hstate, hlen, happ⟩ := serve_append pre post s₁
    refine ⟨r :: rs, s', by rw [serve_cons hstep, hrun]; rfl, by rw [serveState_cons hstep, hstate],
      by rw [List.length_cons, hlen, List.length_cons], ?_⟩
    rw [List.cons_append, serve_cons hstep, happ, Option.map_map]
    rfl

variable (L c) in
/-- The reply to the arrival that follows `pre` is the one the server gives it in the state
`pre` leaves it in. -/
theorem serve_at (s : Server) (pre : List Arrival) (a : Arrival) (post : List Arrival) :
    ∃ s' r s₁ rs, serveState L c s pre = some s' ∧ serverStep L c s' a = some (r, s₁) ∧
      serve L c s (pre ++ a :: post) = some rs ∧ rs[pre.length]? = some r := by
  obtain ⟨rs₁, s', -, hstate, hlen, happ⟩ := serve_append L c pre (a :: post) s
  obtain ⟨⟨r, s₁⟩, hstep⟩ := Option.isSome_iff_exists.mp (serverStep_isSome L c s' a)
  obtain ⟨rs₂, -, hrun, -⟩ := serve_append L c post [] s₁
  refine ⟨s', r, s₁, rs₁ ++ r :: rs₂, hstate, hstep, by rw [happ, serve_cons hstep, hrun]; rfl, ?_⟩
  rw [← hlen, List.getElem?_append_right (Nat.le_refl _), Nat.sub_self, List.getElem?_cons_zero]

variable {fed : Nat → Bytes} {claims : List (Origin × Bytes)}

/-- While no arrival brings `x`, the filter does not take it in.  What a connection brings is read
off all it has been and will be sent. -/
theorem serveState_not_mem {x : Bytes} : ∀ {pre : List Arrival} {fed : Nat → Bytes}
    {s s' : Server} {claims : List (Origin × Bytes)}, Guarded c fed s claims → x ∉ s.sbf →
    (∀ j, c.keyLen < (fed j ++ (connSegs j pre).flatten).length →
      (fed j ++ (connSegs j pre).flatten).take c.keyLen ≠ x) →
    (∀ d, .udp d ∈ pre → d.take c.keyLen ≠ x) → serveState L c s pre = some s' → x ∉ s'.sbf
  | [], _, _, _, _, _, hx, _, _, h => by
    cases h
    exact hx
  | a :: pre, fed, s, _, _, hs, hx, hj, hd, h => by
    obtain ⟨⟨r, s₁⟩, hstep⟩ := Option.isSome_iff_exists.mp (serverStep_isSome L c s a)
    obtain ⟨claims₁, hs₁⟩ := hs.step hstep
    rw [serveState_cons hstep] at h
    exact serveState_not_mem hs₁
      (serverStep_sbf_not_mem hs hstep hx pre (fun j _ => hj j)
        (fun d had => hd d (by rw [had]; exact List.mem_cons_self _ _)))
      (fun j => by rw [feed_connSegs]; exact hj j) (fun d hmem => hd d (List.mem_cons_of_mem _ hmem)) h

/-- A connection that has been sent more than `key_len` bytes has its salt in the filter: it
took the salt, or was refused it because the filter held it.  An arrival keeps this. -/
theorem serverStep_salt_mem {s' : Server} (hs : Guarded c fed s claims)
    (h : serverStep L c s a = some (r, s'))
    (hseen : ∀ j, c.keyLen < (fed j).length → (fed j).take c.keyLen ∈ s.sbf) (j : Nat)
    (hj : c.keyLen < (feed fed a j).length) : (feed fed a j).take c.keyLen ∈ s'.sbf := by
  cases a with
  | udp d => exact serverStep_sbf_subset h (hseen j hj)
  | tcp i seg =>
    by_cases hji : j = i
    · subst hji
      simp only [feed, Function.update_same] at hj ⊢
      by_cases hlong : c.keyLen < (fed j).length
      · rw [List.take_append_of_le_length hlong.le]
        exact serverStep_sbf_subset h (hseen j hlong)
      -- `j` completes its salt with this segment: it was waiting, with all it was sent buffered
      have hinit : (s.conns j).init = false := by
        cases hi : (s.conns j).init
        · rfl
        · exact absurd (hs.owned j hi).1 hlong
      obtain ⟨⟨r₀, ctx', g'⟩, hcall, hx⟩ := Option.map_eq_some'.mp h
      cases hx
      have hmem := aeadDecrypt_salt_mem L hinit
        (by rw [hs.waiting j hinit, hs.cipher j]; exact hj) hcall
      rwa [hs.waiting j hinit, hs.cipher j] at hmem
    · simp only [feed, Function.update_noteq hji] at hj ⊢
      exact serverStep_sbf_subset h (hseen j hj)

theorem serveState_salt_mem : ∀ {pre : List Arrival} {fed : Nat → Bytes} {s s' : Server}
    {claims : List (Origin × Bytes)}, Guarded c fed s claims →
    (∀ j, c.keyLen < (fed j).length → (fed j).take c.keyLen ∈ s.sbf) →
    serveState L c s pre = some s' → ∀ j, c.keyLen < (fed j ++ (connSegs j pre).flatten).length →
      (fed j ++ (connSegs j pre).flatten).take c.keyLen ∈ s'.sbf
  | [], _, _, _, _, _, hseen, h => by
    cases h
    simpa [connSegs] using hseen
  | a :: pre, fed, s, _, _, hs, hseen, h => by
    obtain ⟨⟨r, s₁⟩, hstep⟩ := Option.isSome_iff_exists.mp (serverStep_isSome L c s a)
    obtain ⟨claims₁, hs₁⟩ := hs.step hstep
    rw [serveState_cons hstep] at h
    intro j hj
    rw [← feed_connSegs] at hj ⊢
    exact serveState_salt_mem hs₁ (serverStep_salt_mem hs hstep hseen) h j hj

end State

/-- The filter held the salt connection `i` completes, at the arrival that completes it.  `F` is
what `i` was sent before the arrivals `as` and `s` the server's state then; arrival `m` is the
one that takes `i` past `key_len` bytes, and the filter is read in the state the arrivals
before it leave. -/
def SaltHeld (L : CryptoLib) (c : Cipher) (i : Nat) (F : Bytes) (s : Server)
    (as : List Arrival) : Prop :=
  ∃ m s', (F ++ (connSegs i (as.take m)).flatten).length ≤ c.keyLen ∧
    c.keyLen < (F ++ (connSegs i (as.take (m + 1))).flatten).length ∧
    serveState L c s (as.take m) = some s' ∧ (F ++ (connSegs i as).flatten).take c.keyLen ∈ s'.sbf

section SaltHeld

variable {L : CryptoLib} {c : Cipher} {i : Nat} {F : Bytes} {s s₁ : Server} {a : Arrival}
  {r : Reply}

theorem not_saltHeld_nil : ¬SaltHeld L c i F s [] := fun ⟨_, _, h₁, h₂, _⟩ => by
  simp only [List.take_nil, connSegs] at h₁ h₂
  omega

/-- An arrival that is not for `i` does not complete `i`'s salt. -/
theorem saltHeld_other (ha : ∀ seg, a ≠ .tcp i seg) (h : serverStep L c s a = some (r, s₁))
    (as : List Arrival) : SaltHeld L c i F s (a :: as) ↔ SaltHeld L c i F s₁ as := by
  constructor
  · rintro ⟨_ | m, s', h₁, h₂, h₃, h₄⟩
    · simp only [List.take_zero, List.take_succ_cons, connSegs_other ha] at h₁ h₂
      omega
    · simp only [List.take_succ_cons, connSegs_other ha, serveState_cons h] at h₁ h₂ h₃ h₄
      exact ⟨m, s', h₁, h₂, h₃, h₄⟩
  · rintro ⟨m, s', h₁, h₂, h₃, h₄⟩
    refine ⟨m + 1, s', ?_, ?_, ?_, ?_⟩ <;>
      simpa only [List.take_succ_cons, connSegs_other ha, serveState_cons h]

/-- A segment for `i` completes `i`'s salt, or leaves the question to the arrivals after it. -/
theorem saltHeld_own {seg : Bytes} (h : serverStep L c s (.tcp i seg) = some (r, s₁))
    (as : List Arrival) : SaltHeld L c i F s (.tcp i seg :: as) ↔
      (F.length ≤ c.keyLen ∧ c.keyLen < (F ++ seg).length ∧ (F ++ seg).take c.keyLen ∈ s.sbf) ∨
        SaltHeld L c i (F ++ seg) s₁ as := by
  constructor
  · rintro ⟨_ | m, s', h₁, h₂, h₃, h₄⟩
    · simp only [List.take_zero, List.take_succ_cons, connSegs_own, connSegs_nil,
        List.flatten_cons, List.flatten_nil, List.append_nil] at h₁ h₂
      cases h₃
      exact .inl ⟨by simpa using h₁, h₂, (take_connSegs_own as h₂).2 ▸ h₄⟩
    · simp only [List.take_succ_cons, connSegs_own, List.flatten_cons, serveState_cons h,
        ← List.append_assoc] at h₁ h₂ h₃ h₄
      exact .inr ⟨m, s', h₁, h₂, h₃, h₄⟩
  · rintro (⟨h₁, h₂, h₃⟩ | ⟨m, s', h₁, h₂, h₃, h₄⟩)
    · refine ⟨0, s, by simpa using h₁, by simpa using h₂, rfl, ?_⟩
      rw [(take_connSegs_own as h₂).2]
      exact h₃
    · refine ⟨m + 1, s', ?_, ?_, ?_, ?_⟩ <;>
        simpa only [List.take_succ_cons, connSegs_own, List.flatten_cons, serveState_cons h,
          ← List.append_assoc]

end SaltHeld

/-! ## Runs -/

section Run

variable (L : CryptoLib) (c : Cipher) (i : Nat)

/-- A vetoed connection is answered `CRYPTO_ERROR` to every segment it is sent, whatever else
arrives. -/
theorem serve_vetoed : ∀ (as : List Arrival) (s : Server), Vetoed s.sbf (s.conns i) →
    ∃ rs, serve L c s as = some rs ∧
      connReplies i as rs = List.replicate (connSegs i as).length .error
  | [], _, _ => ⟨[], rfl, rfl⟩
  | a :: as, s, hv => by
    by_cases ha : ∃ seg, a = .tcp i seg
    · obtain ⟨seg, rfl⟩ := ha
      obtain ⟨ctx', hcall, hv'⟩ := aeadDecrypt_vetoed L seg (hv.append seg)
      obtain ⟨rs, hrun, hrep⟩ :=
        serve_vetoed as ⟨s.sbf, Function.update s.conns i ctx'⟩ (by simpa using hv')
      exact ⟨.error :: rs, by simp [serve, serverStep, hcall, hrun],
        by simp [hrep, List.replicate_succ]⟩
    · push_neg at ha
      obtain ⟨⟨r, s₁⟩, hstep⟩ := Option.isSome_iff_exists.mp (serverStep_isSome L c s a)
      obtain ⟨rs, hrun, hrep⟩ := serve_vetoed as s₁
        ((serverStep_other hstep ha).symm ▸ hv.mono (serverStep_sbf_subset hstep))
      exact ⟨r :: rs, by simp [serve, hstep, hrun],
        by rw [connReplies_other ha, connSegs_other ha, hrep]⟩

/-- From a connection whose context a lone client fed `F` would have, the connection is
answered what that client is answered, up to the call `k` that completes the salt.  The filter
refuses the salt there exactly when it held it at that arrival; then that call and every later
one are answered `CRYPTO_ERROR`. -/
theorem serve_live : ∀ (as : List Arrival) (s : Server) (F : Bytes), Fed c F (s.conns i) →
    ∃ rs, serve L c s as = some rs ∧ ∃ rsC ctxC gC,
      decryptRun L false [] (s.conns i) (connSegs i as) = some (rsC, ctxC, gC) ∧
      ∃ k ≤ rsC.length,
        connReplies i as rs = rsC.take k ++ List.replicate (rsC.length - k) .error ∧
        (k < rsC.length → (F ++ ((connSegs i as).take k).flatten).length ≤ c.keyLen ∧
          c.keyLen < (F ++ ((connSegs i as).take (k + 1)).flatten).length) ∧
        (k < rsC.length ↔ SaltHeld L c i F s as)
  | [], s, _, _ =>
    ⟨[], rfl, [], s.conns i, [], rfl, 0, le_rfl, rfl, fun h => absurd h (Nat.lt_irrefl 0),
      iff_of_false (Nat.lt_irrefl 0) not_saltHeld_nil⟩
  | a :: as, s, F, hf => by
    by_cases ha : ∃ seg, a = .tcp i seg
    · obtain ⟨seg, rfl⟩ := ha
      obtain ⟨rC, ctx₁, hC, hf₁⟩ := hf.call L [] seg
      by_cases hv : Vetoed s.sbf { s.conns i with chunk := (s.conns i).chunk ++ seg }
      · -- the filter refuses the salt: this call and every later one answer `CRYPTO_ERROR`
        obtain ⟨ctx', hcall, hv'⟩ := aeadDecrypt_vetoed L seg hv
        have hstep : serverStep L c s (.tcp i seg) =
            some (.error, ⟨s.sbf, Function.update s.conns i ctx'⟩) := by
          simp [serverStep, hcall]
        obtain ⟨rs, hrun, hrep⟩ :=
          serve_vetoed L c i as ⟨s.sbf, Function.update s.conns i ctx'⟩ (by simpa using hv')
        obtain ⟨⟨rsC, ctxC, gC⟩, hrunC⟩ :=
          Option.isSome_iff_exists.mp (decryptRun_isSome L false [] ctx₁ (connSegs i as))
        obtain ⟨hinit, hlong, hmem⟩ := hv.waiting hf.cipher hf.waiting
        have hF : F.length ≤ c.keyLen := by simpa [hinit] using hf.init
        refine ⟨.error :: rs, by rw [serve_cons hstep, hrun]; rfl, rC :: rsC, ctxC, gC,
          by simp [decryptRun, hC, hrunC], 0, Nat.zero_le _, ?_,
          fun _ => ⟨by simpa using hF, by simpa using hlong⟩,
          iff_of_true (Nat.zero_lt_succ _) ((saltHeld_own hstep as).mpr (.inl ⟨hF, hlong, hmem⟩))⟩
        simp [hrep, decryptRun_length L false hrunC, List.replicate_succ]
      · -- the salt passes, or was taken before: the server's call is the client's
        obtain ⟨g₁, hcall⟩ : ∃ g₁, aeadDecrypt L true s.sbf (s.conns i) seg = some (rC, ctx₁, g₁) :=
          ⟨_, by rw [aeadDecrypt_remote_eq L s.sbf [] (s.conns i) seg hv, hC, Option.map_some']⟩
        have hstep : serverStep L c s (.tcp i seg) =
            some (rC, ⟨g₁, Function.update s.conns i ctx₁⟩) := by
          simp [serverStep, hcall]
        obtain ⟨rs, hrun, rsC, ctxC, gC, hrunC, k, hk, hrep, hsalt, hheld⟩ :=
          serve_live as ⟨g₁, Function.update s.conns i ctx₁⟩ (F ++ seg) (by simpa using hf₁)
        simp only [Function.update_same] at hrunC
        -- the salt is not completed here under a filter that holds it
        have hpass : ¬(F.length ≤ c.keyLen ∧ c.keyLen < (F ++ seg).length ∧
            (F ++ seg).take c.keyLen ∈ s.sbf) := fun ⟨hF, hlong, hmem⟩ =>
          hv (hf.vetoed hF hlong hmem)
        refine ⟨rC :: rs, by rw [serve_cons hstep, hrun]; rfl, rC :: rsC, ctxC, gC,
          by simp [decryptRun, hC, hrunC], k + 1, by simpa using hk, by simp [hrep],
          fun hlt => by simpa using hsalt (by simpa using hlt), ?_⟩
        rw [saltHeld_own hstep as, or_iff_right hpass, ← hheld, List.length_cons]
        exact Nat.add_lt_add_iff_right
    · push_neg at ha
      obtain ⟨⟨r, s₁⟩, hstep⟩ := Option.isSome_iff_exists.mp (serverStep_isSome L c s a)
      have hconn := serverStep_other hstep ha
      obtain ⟨rs, hrun, rsC, ctxC, gC, hrunC, k, hk, hrep, hsalt, hheld⟩ :=
        serve_live as s₁ F (hconn ▸ hf)
      refine ⟨r :: rs, by rw [serve_cons hstep, hrun]; rfl, rsC, ctxC, gC, ?_, k, hk, ?_, ?_,
        hheld.trans (saltHeld_other ha hstep as).symm⟩
      · rw [connSegs_other ha, ← hconn]
        exact hrunC
      · rw [connReplies_other ha, hrep]
      · rw [connSegs_other ha]
        exact hsalt

/-- Unless another connection that gets past its salt, or a datagram, brings the salt
connection `i` is sent, a fresh server's filter does not hold that salt when `i` completes it. -/
theorem not_saltHeld_of_fresh {as : List Arrival}
    (hconn : ∀ j ≠ i, c.keyLen < (connSegs j as).flatten.length →
      c.keyLen < (connSegs i as).flatten.length →
      (connSegs j as).flatten.take c.keyLen ≠ (connSegs i as).flatten.take c.keyLen)
    (hdgram : ∀ d, .udp d ∈ as → c.keyLen < (connSegs i as).flatten.length →
      d.take c.keyLen ≠ (connSegs i as).flatten.take c.keyLen) :
    ¬SaltHeld L c i [] (Server.init c) as := by
  rintro ⟨m, s', h₁, h₂, h₃, h₄⟩
  rw [List.nil_append] at h₁ h₂ h₄
  have hi := (take_connSegs_take h₂).1
  refine serveState_not_mem (guarded_init c) (List.not_mem_nil _) (fun j hj => ?_)
    (fun d hd => hdgram d (List.mem_of_mem_take hd) hi) h₃ h₄
  rw [List.nil_append] at hj ⊢
  obtain ⟨hj', htake⟩ := take_connSegs_take hj
  by_cases hji : j = i
  · subst hji
    omega
  · rw [← htake]
    exact hconn j hji hj' hi

/-- Connection `i` of a fresh server is answered exactly what a lone client is, unless another
connection that gets past its salt, or a datagram, brings `i`'s salt. -/
theorem serve_fresh {as : List Arrival}
    (hconn : ∀ j ≠ i, c.keyLen < (connSegs j as).flatten.length →
      c.keyLen < (connSegs i as).flatten.length →
      (connSegs j as).flatten.take c.keyLen ≠ (connSegs i as).flatten.take c.keyLen)
    (hdgram : ∀ d, .udp d ∈ as → c.keyLen < (connSegs i as).flatten.length →
      d.take c.keyLen ≠ (connSegs i as).flatten.take c.keyLen) :
    ∃ rs, serve L c (Server.init c) as = some rs ∧ ∃ rsC ctxC gC,
      decryptRun L false [] (aeadCtxInit c false []) (connSegs i as) = some (rsC, ctxC, gC) ∧
      connReplies i as rs = rsC := by
  obtain ⟨rs, hrun, rsC, ctxC, gC, hrunC, k, hk, hrep, -, hheld⟩ :=
    serve_live L c i as (Server.init c) [] (fed_fresh c)
  obtain rfl : k = rsC.length :=
    Nat.le_antisymm hk (Nat.not_lt.mp fun h => not_saltHeld_of_fresh L c i hconn hdgram (hheld.mp h))
  exact ⟨rs, hrun, rsC, ctxC, gC, hrunC, by simpa using hrep⟩

end Run

/-- Connection isolation.  Run a server on any interleaving of segments for any connections
and of datagrams.  Connection `i` is answered what a lone client decrypter, fed `i`'s segments
alone, is answered, up to the call `k` that completes `i`'s salt.  The server refuses `i` there
exactly when the shared filter, in the state the arrivals before that segment left it, holds
the salt; then that call and every later one are answered `CRYPTO_ERROR`.  Nothing else of the
rest of the traffic reaches connection `i`. -/
theorem tcp_connection_isolated (L : CryptoLib) (c : Cipher) (as : List Arrival) (i : Nat) :
    ∃ rs, serve L c (Server.init c) as = some rs ∧ ∃ rsC ctxC gC,
      decryptRun L false [] (aeadCtxInit c false []) (connSegs i as) = some (rsC, ctxC, gC) ∧
      ∃ k ≤ rsC.length,
        connReplies i as rs = rsC.take k ++ List.replicate (rsC.length - k) .error ∧
        (k < rsC.length → ((connSegs i as).take k).flatten.length ≤ c.keyLen ∧
          c.keyLen < ((connSegs i as).take (k + 1)).flatten.length) ∧
        (k < rsC.length ↔ ∃ m s, (connSegs i (as.take m)).flatten.length ≤ c.keyLen ∧
          c.keyLen < (connSegs i (as.take (m + 1))).flatten.length ∧
          serveState L c (Server.init c) (as.take m) = some s ∧
          (connSegs i as).flatten.take c.keyLen ∈ s.sbf) := by
  obtain ⟨rs, hrun, rsC, ctxC, gC, hrunC, k, hk, hrep, hsalt, hheld⟩ :=
    serve_live L c i as (Server.init c) [] (fed_fresh c)
  refine ⟨rs, hrun, rsC, ctxC, gC, hrunC, k, hk, hrep, by simpa using hsalt, ?_⟩
  simpa only [SaltHeld, List.nil_append] using hheld

/-- Sessions under distinct salts do not interfere.  Run a server on any interleaving of
segments for any connections and of datagrams, in which no other connection that gets past its
salt was sent the salt connection `i` is sent, and no datagram starts with it.  Then
connection `i` is answered exactly what a lone client decrypter, fed `i`'s segments alone, is
answered.  The filter is exact: it reports no salt it was not given. -/
theorem tcp_connection_fresh_salt (L : CryptoLib) (c : Cipher) (as : List Arrival) (i : Nat)
    (hconn : ∀ j ≠ i, c.keyLen < (connSegs j as).flatten.length →
      c.keyLen < (connSegs i as).flatten.length →
      (connSegs j as).flatten.take c.keyLen ≠ (connSegs i as).flatten.take c.keyLen)
    (hdgram : ∀ d, .udp d ∈ as → c.keyLen < (connSegs i as).flatten.length →
      d.take c.keyLen ≠ (connSegs i as).flatten.take c.keyLen) :
    ∃ rs, serve L c (Server.init c) as = some rs ∧ ∃ rsC ctxC gC,
      decryptRun L false [] (aeadCtxInit c false []) (connSegs i as) = some (rsC, ctxC, gC) ∧
      connReplies i as rs = rsC :=
  serve_fresh L c i hconn hdgram

/-- Two connections under the salts `0…0` and `1…1`, their segments interleaved, and a datagram
under the salt `2…2`. -/
def twoSessions : List Arrival :=
  [.tcp 0 (List.replicate 10 0), .tcp 1 (List.replicate 17 1), .udp (List.replicate 40 2),
    .tcp 0 (List.replicate 7 0)]

/-- The traffic `twoSessions` under `aes-128-gcm` keyed from the password `pw`, over the
transparent library: connection `0` is answered as a lone client is. -/
theorem tcp_connection_fresh_salt_two :
    (∀ j ≠ 0, 16 < (connSegs j twoSessions).flatten.length →
      16 < (connSegs 0 twoSessions).flatten.length →
      (connSegs j twoSessions).flatten.take 16 ≠ (connSegs 0 twoSessions).flatten.take 16) ∧
    (∀ d, .udp d ∈ twoSessions → 16 < (connSegs 0 twoSessions).flatten.length →
      d.take 16 ≠ (connSegs 0 twoSessions).flatten.take 16) ∧
    ∃ rs, serve CryptoLib.plain (aeadKeyInit CryptoLib.plain .aes128gcm [112, 119])
        (Server.init (aeadKeyInit CryptoLib.plain .aes128gcm [112, 119])) twoSessions = some rs ∧
      ∃ rsC ctxC gC, decryptRun CryptoLib.plain false []
          (aeadCtxInit (aeadKeyInit CryptoLib.plain .aes128gcm [112, 119]) false [])
          (connSegs 0 twoSessions) = some (rsC, ctxC, gC) ∧
        connReplies 0 twoSessions rs = rsC := by
  have hconn : ∀ j ≠ 0, 16 < (connSegs j twoSessions).flatten.length →
      16 < (connSegs 0 twoSessions).flatten.length →
      (connSegs j twoSessions).flatten.take 16 ≠ (connSegs 0 twoSessions).flatten.take 16 := by
    rintro (_ | _ | j) hj hlong -
    · exact absurd rfl hj
    · decide
    · simp [connSegs, twoSessions] at hlong
  have hdgram : ∀ d, .udp d ∈ twoSessions → 16 < (connSegs 0 twoSessions).flatten.length →
      d.take 16 ≠ (connSegs 0 twoSessions).flatten.take 16 := by
    intro d hd _
    simp only [twoSessions, List.mem_cons, Arrival.udp.injEq, reduceCtorEq, false_or,
      List.mem_singleton, List.not_mem_nil, or_false] at hd
    subst hd
    decide
  exact ⟨hconn, hdgram,
    tcp_connection_fresh_salt _ (aeadKeyInit CryptoLib.plain .aes128gcm [112, 119]) _ 0 hconn hdgram⟩

/-- A datagram through a busy server.  Seal any non-empty plaintext with `aead_encrypt_all`
under the salt `rand`, and hand it to a server after any interleaving `pre` of segments and
datagrams, and before any others.  If nothing in `pre` brought `rand` (no datagram starts with
it, and no connection got past a salt equal to it), the server accepts the datagram, with its
plaintext, the filter being exact.  Segments and datagrams share the filter: a connection in
`pre` that got past the salt `rand` is enough for the server to refuse the datagram. -/
theorem udp_server_round_trip (L : CryptoLib) (hinv : L.Inverts) (c : Cipher) (p rand : Bytes)
    (hp : p ≠ []) (hrand : rand.length = c.keyLen) (pre post : List Arrival) :
    ∃ out call, aeadEncryptAll L c p rand = some (out, call) ∧
      ∃ rs, serve L c (Server.init c) (pre ++ .udp out :: post) = some rs ∧
        ((∀ j, c.keyLen < (connSegs j pre).flatten.length →
            (connSegs j pre).flatten.take c.keyLen ≠ rand) →
          (∀ d, .udp d ∈ pre → d.take c.keyLen ≠ rand) → rs[pre.length]? = some (.ok p)) ∧
        ((∃ j, c.keyLen < (connSegs j pre).flatten.length ∧
            (connSegs j pre).flatten.take c.keyLen = rand) → rs[pre.length]? = some .error) := by
  obtain ⟨s', r, s₁, rs, hpre, hstep, hrun, hr⟩ := serve_at L c (Server.init c) pre
    (.udp (rand ++ L.authEncrypt c.method c.key (leBytes c.nonceLen 0) p)) post
  -- the datagram's verdict is the filter's, as `pre` left it
  have hreply : r = if rand ∈ s'.sbf then .error else .ok p := by
    rw [serverStep, aeadDecryptAll_sealed L hinv c hp hrand] at hstep
    by_cases hm : rand ∈ s'.sbf <;> simp only [hm, if_true, if_false, Option.map_some',
      Option.some.injEq, Prod.mk.injEq] at hstep <;> simp [hm, hstep.1]
  refine ⟨_, _, aeadEncryptAll_eq L c p rand, rs, hrun, fun hconn hdgram => ?_,
    fun ⟨j, hj, hsalt⟩ => ?_⟩
  · have hnew : rand ∉ s'.sbf := serveState_not_mem (guarded_init c) (List.not_mem_nil _)
      (by simpa using hconn) hdgram hpre
    rw [hr, hreply, if_neg hnew]
  · have hmem : rand ∈ s'.sbf := by
      have := serveState_salt_mem (guarded_init c) (fun _ h => absurd h (Nat.not_lt_zero _))
        hpre j (by simpa using hj)
      simpa [hsalt] using this
    rw [hr, hreply, if_pos hmem]

/-- A session under the salt `1…1`, then a datagram under the salt `2…2`. -/
def sessionThenDatagram : List Arrival := [.tcp 0 (List.replicate 20 1), .udp (List.replicate 40 2)]

/-- The byte `7` sealed by `aes-128-gcm`, keyed from the password `pw`, under the salt `3…3`,
over the transparent library: accepted after `sessionThenDatagram`, refused after a session
under the same salt `3…3`. -/
theorem udp_server_round_trip_seven :
    CryptoLib.plain.Inverts ∧ ([7] : Bytes) ≠ [] ∧ (List.replicate 16 3 : Bytes).length = 16 ∧
    ∃ out call, aeadEncryptAll CryptoLib.plain (aeadKeyInit CryptoLib.plain .aes128gcm [112, 119])
        [7] (List.replicate 16 3) = some (out, call) ∧
      (∃ rs, serve CryptoLib.plain (aeadKeyInit CryptoLib.plain .aes128gcm [112, 119])
          (Server.init (aeadKeyInit CryptoLib.plain .aes128gcm [112, 119]))
          (sessionThenDatagram ++ [.udp out]) = some rs ∧ rs[2]? = some (.ok [7])) ∧
      ∃ rs, serve CryptoLib.plain (aeadKeyInit CryptoLib.plain .aes128gcm [112, 119])
          (Server.init (aeadKeyInit CryptoLib.plain .aes128gcm [112, 119]))
          ([.tcp 0 (List.replicate 20 3)] ++ [.udp out]) = some rs ∧ rs[1]? = some .error := by
  have hconn : ∀ j, 16 < (connSegs j sessionThenDatagram).flatten.length →
      (connSegs j sessionThenDatagram).flatten.take 16 ≠ List.replicate 16 3 := by
    rintro (_ | j) hlong
    · decide
    · simp [connSegs, sessionThenDatagram] at hlong
  have hdgram : ∀ d, .udp d ∈ sessionThenDatagram → d.take 16 ≠ List.replicate 16 3 := by
    intro d hd
    simp only [sessionThenDatagram, List.mem_cons, Arrival.udp.injEq, reduceCtorEq, false_or,
      List.mem_singleton, List.not_mem_nil, or_false] at hd
    subst hd
    decide
  obtain ⟨out, call, henc, rs, hrun, hok, -⟩ := udp_server_round_trip CryptoLib.plain
    CryptoLib.plain_inverts (aeadKeyInit CryptoLib.plain .aes128gcm [112, 119]) [7]
    (List.replicate 16 3) (List.cons_ne_nil _ _) rfl sessionThenDatagram []
  obtain ⟨out', call', henc', rs', hrun', -, herr⟩ := udp_server_round_trip CryptoLib.plain
    CryptoLib.plain_inverts (aeadKeyInit CryptoLib.plain .aes128gcm [112, 119]) [7]
    (List.replicate 16 3) (List.cons_ne_nil _ _) rfl [.tcp 0 (List.replicate 20 3)] []
  obtain ⟨rfl, rfl⟩ := Prod.mk.inj (Option.some.inj (henc.symm.trans henc'))
  exact ⟨CryptoLib.plain_inverts, List.cons_ne_nil _ _, rfl, out, call, henc,
    ⟨rs, hrun, hok hconn hdgram⟩, rs', hrun', herr ⟨0, by decide, by decide⟩⟩

/-- The round trip through a busy server.  Encrypt any plaintexts of at most `0x3FFF` bytes
from a fresh context under the salt `rand`, and send the stream to connection `i` of a server,
cut into any segments, interleaved with any segments for other connections and any datagrams.
If no other connection that gets past its salt was sent `rand` as its salt, and no datagram
starts with `rand`, the server answers connection `i` no `CRYPTO_ERROR` and hands it back
exactly the plaintexts sent.  The filter is exact: it reports no salt it was not given. -/
theorem tcp_server_round_trip (L : CryptoLib) (hinv : L.Inverts) (c : Cipher) (rand : Bytes)
    (hrand : rand.length = c.keyLen) (ps : List Bytes)
    (hps : ∀ p ∈ ps, p.length ≤ chunkSizeMask) :
    ∃ outs ctx, encryptRun L (aeadCtxInit c true rand) ps = some (outs, ctx) ∧
      ∀ (as : List Arrival) (i : Nat),
        (connSegs i as).flatten = (outs.map fun o => o.1.data).flatten →
        (∀ j ≠ i, c.keyLen < (connSegs j as).flatten.length →
          (connSegs j as).flatten.take c.keyLen ≠ rand) →
        (∀ d, .udp d ∈ as → d.take c.keyLen ≠ rand) →
        ∃ rs, serve L c (Server.init c) as = some rs ∧ .error ∉ connReplies i as rs ∧
          ((connReplies i as rs).map Reply.plaintext).flatten = ps.flatten := by
  obtain ⟨outs, ctxE, hrun, hbufs, -⟩ := encryptRun_fresh_outs L c rand ps hps
  refine ⟨outs, ctxE, hrun, fun as i hsegs hconn hdgram => ?_⟩
  rw [← Function.comp_def Buffer.data Prod.fst, ← List.map_map, hbufs] at hsegs
  -- connection `i`'s salt, once it has one, is `rand`
  have hsalt : c.keyLen < (connSegs i as).flatten.length →
      (connSegs i as).flatten.take c.keyLen = rand := fun h => by
    rw [hsegs] at h ⊢
    exact sealedStream_take_keyLen hrand 0 ps h
  obtain ⟨rs, hserve, rsC, ctxC, gC, hrunC, hrep⟩ := serve_fresh L c i
    (fun j hji hj hi => hsalt hi ▸ hconn j hji hj) (fun d hd hi => hsalt hi ▸ hdgram d hd)
  obtain ⟨rs', dctx, g', hrun', hrs, hplain⟩ := decryptRun_sealed hinv hrand hps [] hsegs
  obtain ⟨rfl, -, -⟩ := Prod.mk.inj (Option.some.inj (hrunC.symm.trans hrun'))
  exact ⟨rs, hserve, hrep ▸ hrs, by rw [hrep, hplain]⟩

/-- A stream for connection `0` cut at its bytes `20` and `40`, a segment for connection `1`
under the salt `1…1` and a datagram under the salt `2…2` arriving between the pieces. -/
def cutInThree (stream : Bytes) : List Arrival :=
  [.tcp 0 (stream.take 20), .tcp 1 (List.replicate 40 1), .tcp 0 ((stream.drop 20).take 20),
    .udp (List.replicate 50 2), .tcp 0 ((stream.drop 20).drop 20)]

/-- One `chacha20-poly1305` plaintext, the byte `7`, keyed from the password `pw`, under the zero
salt, over the transparent library.  Its stream is 67 bytes, so `cutInThree` cuts both the salt
and the chunk; the server hands `7` back to connection `0`. -/
theorem tcp_server_round_trip_seven :
    CryptoLib.plain.Inverts ∧ (List.replicate 32 0 : Bytes).length = 32 ∧
    (∀ p ∈ ([[7]] : List Bytes), p.length ≤ chunkSizeMask) ∧
    ∃ outs ctx, encryptRun CryptoLib.plain
        (aeadCtxInit (aeadKeyInit CryptoLib.plain .chacha20poly1305 [112, 119]) true
          (List.replicate 32 0)) [[7]] = some (outs, ctx) ∧
      (outs.map fun o => o.1.data).flatten.length = 67 ∧
      ∃ rs, serve CryptoLib.plain (aeadKeyInit CryptoLib.plain .chacha20poly1305 [112, 119])
          (Server.init (aeadKeyInit CryptoLib.plain .chacha20poly1305 [112, 119]))
          (cutInThree (outs.map fun o => o.1.data).flatten) = some rs ∧
        .error ∉ connReplies 0 (cutInThree (outs.map fun o => o.1.data).flatten) rs ∧
        ((connReplies 0 (cutInThree (outs.map fun o => o.1.data).flatten) rs).map
          Reply.plaintext).flatten = [7] := by
  obtain ⟨outs, ctx, hrun, hall⟩ := tcp_server_round_trip CryptoLib.plain CryptoLib.plain_inverts
    (aeadKeyInit CryptoLib.plain .chacha20poly1305 [112, 119]) (List.replicate 32 0) rfl [[7]]
    (by decide)
  have hlen : (outs.map fun o => o.1.data).flatten.length = 67 := by
    have h : (encryptRun CryptoLib.plain
        (aeadCtxInit (aeadKeyInit CryptoLib.plain .chacha20poly1305 [112, 119]) true
          (List.replicate 32 0)) [[7]]).map
        (fun x => (x.1.map fun o => o.1.data).flatten.length) = some 67 := rfl
    rw [hrun] at h
    exact Option.some.inj h
  have hsegs : ∀ X : Bytes, (connSegs 0 (cutInThree X)).flatten = X := fun X => by
    show X.take 20 ++ ((X.drop 20).take 20 ++ ((X.drop 20).drop 20 ++ [])) = X
    rw [List.append_nil, List.take_append_drop, List.take_append_drop]
  have hconn : ∀ j ≠ 0, ∀ X : Bytes, 32 < (connSegs j (cutInThree X)).flatten.length →
      (connSegs j (cutInThree X)).flatten.take 32 ≠ List.replicate 32 0 := by
    rintro (_ | _ | j) hj X hlong
    · exact absurd rfl hj
    · simp [connSegs, cutInThree]
    · simp [connSegs, cutInThree] at hlong
  have hdgram : ∀ X : Bytes, ∀ d, .udp d ∈ cutInThree X → d.take 32 ≠ List.replicate 32 0 := by
    intro X d hd
    simp only [cutInThree, List.mem_cons, Arrival.udp.injEq, reduceCtorEq, false_or,
      List.mem_singleton, List.not_mem_nil, or_false] at hd
    subst hd
    decide
  exact ⟨CryptoLib.plain_inverts, rfl, by decide, outs, ctx, hrun, hlen,
    hall _ 0 (hsegs _) (fun j hj => hconn j hj _) (hdgram _)⟩

end ShadowAead

import TinyRedis.Proofs.Net.Invariant

/-!
# `TinyRedis.Proofs.Net.Connection`: a connection keeps the process healthy

One rule for each function of a connection: from `Health` to `Health`, whatever the kernel answers.
The loops of `processInput` and `flushOutput` keep it at their heads.

* `markClosed_spec`, `markBroken_spec`: the connection is handed to the server as retired.
* `updateInterest_spec`: after it the connection is registered for what it waits for.
* `flushRound_spec`, `flushOutput_spec`: a round of writing, and the loop.
* `wpu_dispatch_bind`: a command on the store of a healthy process is defined, and keeps it within
  its capacity.
* `processRound_spec`, `processInput_spec`: a round over the input buffer, and the loop.
* `onReadable_spec`, `onWritable_spec`: the two handlers, which begin and end with no connection
  being attended to.

A connection goes through three activities (`Activity`): it is parsing while its input may hold a
command that has arrived whole, it is flushing while its mask may be out of date, and after that it
is idle. Each rule says from which activity to which it goes. A rule needs the connection to exist:
the handlers are called for connections that are `live`, and the functions below them are called
before anything could have destroyed it.
-/

set_option autoImplicit false

namespace TinyRedis

open Lib Exec

variable [EntryPool] {f : Frame} {live : List ConnId} {act : Activity} {s : System}
  {id : ConnId} {c : Connection}

/-- `this` is followed to the connection that is there. -/
theorem wpu_connection {α : Type} {U : Prop} {g : Connection → NetM α} {Q : α → System → Prop}
    {C : Call → System → Prop} (hc : s.heap id = some c) (h : wpu U (g c) Q C s) :
    wpu U (connection id >>= g) Q C s := by
  refine wpu_bind (wpu_get_bind ?_)
  rw [hc]
  exact fun _ => h

/-- `epoll_ctl` fails and changes nothing, or writes the entry of the descriptor. -/
theorem wpu_epollCtl {α : Type} {U : Prop} {g : Except Errno Unit → NetM α}
    {Q : α → System → Prop} {C : Call → System → Prop} {handler : Handler} {fd : Fd}
    {flag : CtlFlag} {events : UInt32} (hC : C .epollCtl s)
    (herror : ∀ e, wpu U (g (.error e)) Q C s)
    (hok : wpu U (g (.ok ())) Q C (s.registered fd (some (handler, events)))) :
    wpu U (EventLoop.epollCtl handler fd flag events >>= g) Q C s := by
  refine wpu_bind (wpu_get_bind ?_)
  dsimp only
  refine wpu_ask_bind hC fun _ r _ => ?_
  cases r with
  | error e => exact wpu_pure (herror e)
  | ok _ => exact wpu_modify_bind (wpu_pure hok)

namespace Server

/-- The clock is read, or not, and only the cache of the clock changes. -/
theorem now_spec (h : Health f live act s) :
    Meets f now (fun _ s' => Health f live act s' ∧ s'.heap = s.heap) s := by
  refine wpu_get_bind ?_
  dsimp only
  split
  · exact wpu_pure ⟨h, rfl⟩
  · refine wpu_ask_bind (h.observed_midway rfl trivial) fun _ t _ => wpu_modify_bind (wpu_pure ?_)
    exact ⟨⟨h.cap, h.serving, h.owned, h.live, h.polled, h.later, h.paused⟩, rfl⟩

end Server

namespace Connection

/-! ### Closing -/

/-- Closing a connection retires it. Its session ends with the state that it has. -/
theorem markClosed_spec (h : Health f live act s) (hact : act.busy = none) (hwas : act.Only id)
    (hc : s.heap id = some c) (hopen : c.state ≠ .kClosed)
    (hserved : Served (s.sessions id) { c with state := .kClosed }) :
    Meets f (markClosed id) (fun _ => Health f live .idle) s := by
  refine wpu_connection hc ?_
  rw [if_neg (by simpa [closed] using hopen)]
  refine wpu_modify_bind (wpu_connection (Function.update_self ..) (wpu_get_bind ?_))
  have hplace : places s.heap id = some ⟨c.fd, false⟩ := by
    rw [places_eq hc, place, decide_eq_false hopen]
  have hlisted : s.server.connections c.fd = some id := h.owned.connections_iff.mpr hplace
  rw [show (s.put id _).server.connections c.fd = some id from hlisted]
  exact wpu_modify (h.retire hact hwas hc hopen hserved)

/-- A connection whose socket fails is closed, in whatever state it was. -/
theorem markBroken_spec (h : Health f live (.flushing id) s) (hc : s.heap id = some c)
    (hopen : c.state ≠ .kClosed) :
    Meets f (markBroken id) (fun _ => Health f live .idle) s := by
  have hserved := h.serving.served hc
  have hsettled := h.serving.rests hc
  have hrecord : Health f live (.flushing id) (s.record id fun h => { h with broken := true }) := by
    refine h.turn hc hopen (by rw [← hc]; exact (Function.update_eq_self ..).symm) rfl rfl rfl rfl
      h.cap rfl rfl ?_ (Or.inr rfl) (Or.inr ⟨hsettled, Or.inl rfl⟩)
    exact ⟨hserved.fifo, hserved.going, hserved.ended, fun hclosed => absurd hclosed hopen⟩
  refine wpu_modify_bind (markClosed_spec hrecord rfl (Or.inr rfl) hc hopen ?_)
  show Served (Function.update s.sessions id _ id) _
  rw [Function.update_self]
  exact hserved.break_ hsettled

/-! ### Writing -/

/-- A connection that is not done with ends up asking epoll for what it waits for. -/
theorem updateInterest_spec (h : Health f live (.flushing id) s) (hc : s.heap id = some c)
    (hopen : c.state ≠ .kClosed) (hpending : c.state = .kClosing → c.out.readable ≠ []) :
    Meets f (updateInterest id) (fun _ => Health f live .idle) s := by
  refine wpu_connection hc ?_
  split
  · next heq =>
    -- The mask is already the one that is wanted.
    have hserved := h.serving.served hc
    have hsettled := h.serving.rests hc
    have hrested : c.Rested := fun _ => ⟨heq.symm, hpending⟩
    refine wpu_pure (h.turn hc hopen ?_ (Function.update_eq_self ..).symm rfl rfl rfl h.cap rfl rfl
      hserved (Or.inr rfl) (Or.inr ⟨hsettled, Or.inr ⟨rfl, fun _ => hrested⟩⟩))
    rw [← hc, Function.update_eq_self]
  · exact wpu_epollCtl (h.observed rfl trivial) (fun e => markBroken_spec h hc hopen)
      (wpu_modify (h.rearm hc hopen hpending))

/-- A round of the write loop: it goes on with the connection open, or the connection is closed
after a failed write. -/
theorem flushRound_spec (h : Health f live (.flushing id) s) (hc : s.heap id = some c)
    (hopen : c.state ≠ .kClosed) :
    Meets f (flushRound id ()) (fun r s' =>
        (r = .leave false → Health f live .idle s') ∧
        (r ≠ .leave false → Health f live (.flushing id) s' ∧
          ∃ c, s'.heap id = some c ∧ c.state ≠ .kClosed)) s := by
  have hserved := h.serving.served hc
  have hsettled := h.serving.rests hc
  have hgoesOn : ∀ {r : Round Unit Bool}, r ≠ .leave false →
      (r = .leave false → Health f live .idle s) ∧
      (r ≠ .leave false → Health f live (.flushing id) s ∧
        ∃ c, s.heap id = some c ∧ c.state ≠ .kClosed) :=
    fun hne => ⟨fun heq => absurd heq hne, fun _ => ⟨h, c, hc, hopen⟩⟩
  refine wpu_connection hc ?_
  -- nothing to write
  split
  · exact wpu_pure (hgoesOn (by simp))
  refine wpu_ask_bind (h.observed rfl ⟨c, hc, hopen⟩) fun _ r _ => ?_
  split
  · next n _ =>
    -- nothing was taken
    split
    · exact wpu_pure (hgoesOn (by simp))
    obtain ⟨out, hconsume, hout⟩ :=
      Buffer.consume_spec (b := c.out) (n := n) (by rw [Buffer.length_readable]; exact n.property)
    refine wpu_defined_bind hconsume (wpu_modify_bind (wpu_modify_bind (wpu_pure
      ⟨fun heq => (by cases heq), fun _ => ⟨?_, ?_⟩⟩)))
    · exact h.turn hc hopen rfl rfl rfl rfl rfl h.cap rfl rfl (hserved.write hopen hout)
        (Or.inr rfl) (Or.inr ⟨hsettled, Or.inl rfl⟩)
    · exact ⟨{ c with out }, Function.update_self .., hopen⟩
  -- the socket is full, or the call was interrupted
  · exact wpu_pure (hgoesOn (by simp))
  · exact wpu_pure (hgoesOn (by simp))
  · exact wpu_seq (markBroken_spec h hc hopen) fun _ s' hs' =>
      wpu_pure ⟨fun _ => hs', fun hne => absurd rfl hne⟩

/-- The output is sent as far as it goes, and then the connection is idle: closed, or waiting for
what it is registered for. -/
theorem flushOutput_spec (h : Health f live (.flushing id) s) (hc : s.heap id = some c)
    (hopen : c.state ≠ .kClosed) :
    Meets f (flushOutput id) (fun _ => Health f live .idle) s := by
  -- The loop keeps the connection open unless it leaves with `false`, after `markBroken`.
  have hloop : Meets f (loop (.flushLoop id) (flushRound id) ())
      (fun goesOn s' => (goesOn = false → Health f live .idle s') ∧
        (goesOn = true → Health f live (.flushing id) s' ∧
          ∃ c, s'.heap id = some c ∧ c.state ≠ .kClosed)) s := by
    refine wpu_loop (fun _ s' => Health f live (.flushing id) s' ∧
      ∃ c, s'.heap id = some c ∧ c.state ≠ .kClosed) ?_ ?_ ⟨h, c, hc, hopen⟩
    · exact fun _ s' hs' => hs'.1.observed rfl hs'.2
    · rintro _ s' ⟨hs', c', hc', hopen'⟩
      refine wpu_mono (flushRound_spec hs' hc' hopen') ?_
      rintro r s'' ⟨hbroken, hstays⟩
      cases r with
      | again _ => exact hstays (fun heq => by cases heq)
      | leave goesOn =>
        refine ⟨?_, ?_⟩
        · rintro rfl
          exact hbroken rfl
        · rintro rfl
          exact hstays (fun heq => by cases heq)
  refine wpu_seq hloop ?_
  rintro goesOn s' ⟨hbroken, hstays⟩
  cases goesOn with
  | false => exact wpu_pure (hbroken rfl)
  | true =>
    obtain ⟨hs', c', hc', hopen'⟩ := hstays rfl
    refine wpu_connection hc' ?_
    split
    · next hdone =>
      -- Everything is written and the connection was closing: it is closed now.
      have hout := Buffer.empty_iff.mp hdone.1
      exact markClosed_spec hs' rfl (Or.inr rfl) hc' hopen'
        ((hs'.serving.served hc').close hdone.2 hout)
    · next hmore =>
      refine updateInterest_spec hs' hc' hopen' fun hclosing hnil => ?_
      exact hmore ⟨Buffer.empty_iff.mpr hnil, hclosing⟩

/-! ### Reading -/

/-- The command that `dispatch` is given fits, so it is defined on a store within its capacity and
leaves one. -/
theorem wpu_dispatch_bind (h : Health f live (.parsing id) s) {cmd : Command} (hfits : cmd.Fits)
    {now : Int64} {out : Buffer} {α : Type} {k : DispatchResult × Store × Buffer → NetM α}
    {Q : α → System → Prop}
    (hk : ∀ d store out', dispatch s.server.store cmd now out = some (d, store, out') →
      (f.valid → Store.Cap f.presized f.b₀ f.m₀ store) → Meets f (k (d, store, out')) Q s) :
    Meets f (Exec.defined (dispatch s.server.store cmd now out) >>= k) Q s := by
  have hdefined (hvalid : f.valid) := (h.cap hvalid).dispatch cmd now out hfits
  refine wpu_defined_unless_bind (fun hnone hvalid => ?_) ?_
  · obtain ⟨d, store, out', hdispatch, -⟩ := hdefined hvalid
    rw [hnone] at hdispatch
    cases hdispatch
  · rintro ⟨d, store, out'⟩ hdispatch
    refine hk d store out' hdispatch fun hvalid => ?_
    obtain ⟨d', store', out'', hdispatch', hcap⟩ := hdefined hvalid
    rw [hdispatch] at hdispatch'
    cases hdispatch'
    exact hcap

/-- A round of the command loop: the connection goes on with what the command has left, or it has
nothing more to parse. -/
theorem processRound_spec (h : Health f live (.parsing id) s) (hc : s.heap id = some c)
    (hstate : c.state = .kOpen) (now : Int64) (cmd : Command) :
    Meets f (processRound id now cmd)
      (Round.Sat
        (fun _ s' => Health f live (.parsing id) s' ∧ ∃ c, s'.heap id = some c ∧ c.state = .kOpen)
        (fun _ s' => Health f live (.flushing id) s' ∧
          ∃ c, s'.heap id = some c ∧ c.state ≠ .kClosed)) s := by
  have hserved := h.serving.served hc
  have hopen : c.state ≠ .kClosed := by simp [hstate]
  refine wpu_connection hc ?_
  split
  · next hempty =>
    -- Nothing is left to parse.
    have hnil := Buffer.empty_iff.mp hempty
    refine wpu_pure ⟨h.settle hc fun _ => ?_, c, hc, hopen⟩
    rw [hnil, verdict_pending_iff cmd]
    rfl
  -- The parser reuses `cmd`, which changes neither its verdict nor the new command.
  have hverdict := verdict_eq c.in_.readable cmd
  have hpending := @verdict_pending_iff c.in_.readable cmd
  have hfits := @parseCommand_fits _ c.in_.readable cmd
  have hconsumed := parseCommand_consumed c.in_.readable cmd
  generalize parseCommand c.in_.readable cmd = parsed at hverdict hpending hfits hconsumed ⊢
  obtain ⟨res, cmd'⟩ := parsed
  dsimp only at hverdict hpending hfits hconsumed ⊢
  cases hres : res.status with
  | kIncomplete =>
    exact wpu_pure ⟨h.settle hc fun _ => hpending.mpr hres, c, hc, hopen⟩
  | kProtocolError =>
    rw [hres] at hverdict
    -- The refusal is the last thing the session answers.
    refine wpu_modify_bind (wpu_modify_bind (wpu_pure ⟨?_, ?_⟩))
    · exact h.turn hc hopen rfl rfl rfl rfl rfl h.cap (by simp [place, hstate]) rfl
        (hserved.refuse hstate hverdict) (Or.inr rfl)
        (Or.inr ⟨by simp [Settled], Or.inl rfl⟩)
    · exact ⟨_, Function.update_self .., by simp⟩
  | kOk =>
    rw [hres] at hverdict
    have hle : res.consumed ≤ c.in_.readable.length := by
      rcases hconsumed with ⟨-, -, hle⟩ | ⟨hnot, -⟩
      · exact hle
      · exact absurd hres hnot
    obtain ⟨in_, hconsume, hin⟩ := Buffer.consume_spec hle
    have hitem : verdict c.in_.readable = .item cmd' res.consumed := hverdict
    -- The parser bounds the arguments.
    refine wpu_get_bind (wpu_dispatch_bind h (hfits hres) fun d store out hdispatch hcap => ?_)
    have hout := readable_dispatch hdispatch
    have hquits := dispatch_quits hdispatch
    refine wpu_defined_bind hconsume (wpu_modify_bind (wpu_modify_bind ?_))
    split
    · next hclose =>
      -- QUIT: the rest of the input stays unread.
      refine wpu_modify_bind (wpu_pure ⟨?_, ?_⟩)
      · exact h.turn hc hopen rfl rfl rfl rfl rfl hcap (by simp [place, hstate]) rfl
          (hserved.quit hstate hitem (hquits.mp hclose) hout) (Or.inr rfl)
          (Or.inr ⟨by simp [Settled], Or.inl rfl⟩)
      · exact ⟨_, Function.update_self .., by simp⟩
    · next hgo =>
      have hquits' : cmd'.quits = false := by
        rw [← Bool.not_eq_true, ← hquits]
        exact hgo
      refine wpu_modify_bind (wpu_pure ⟨?_, ?_⟩)
      · exact h.turn hc hopen rfl rfl rfl rfl rfl hcap rfl rfl
          (hserved.dispatch hstate hitem hquits' hin hout) (Or.inr rfl) (Or.inl rfl)
      · exact ⟨_, Function.update_self .., hstate⟩

/-- After `processInput` the connection has nothing more to parse. -/
theorem processInput_spec (h : Health f live (.parsing id) s) (hc : s.heap id = some c)
    (hopen : c.state ≠ .kClosed) :
    Meets f (processInput id) (fun _ s' => Health f live (.flushing id) s' ∧
        ∃ c, s'.heap id = some c ∧ c.state ≠ .kClosed) s := by
  refine wpu_connection hc ?_
  split
  · next hstate => exact wpu_pure ⟨h.settle hc fun heq => absurd heq hstate, c, hc, hopen⟩
  · next hstate =>
    refine wpu_seq (Server.now_spec h) ?_
    rintro now s' ⟨hs', hheap⟩
    -- The loop runs while the connection is busy: it may still have commands to parse.
    refine wpu_loop (fun _ s' => Health f live (.parsing id) s' ∧
      ∃ c, s'.heap id = some c ∧ c.state = .kOpen) ?_ ?_ ⟨hs', c, ?_, not_not.mp hstate⟩
    · exact fun _ s' hs' => hs'.1.observed_midway rfl hs'.2
    · rintro cmd s' ⟨hs', c', hc', hstate'⟩
      exact processRound_spec hs' hc' hstate' now cmd
    · rw [hheap]
      exact hc

/-- The reading handler, from idle to idle. -/
theorem onReadable_spec (h : Health f live .idle s) (hlive : id ∈ live) :
    Meets f (onReadable id) (fun _ => Health f live .idle) s := by
  obtain ⟨c, hc⟩ := h.live id hlive
  refine wpu_connection hc ?_
  split
  · exact wpu_pure h
  next hclosed =>
  have hopen : c.state ≠ .kClosed := by simpa [closed] using hclosed
  have hserved := h.serving.served hc
  have hsettled := h.serving.rests hc
  refine wpu_modify_bind ?_
  let in_ := c.in_.ensureWritable kDefaultCapacity
  have hin' : in_.readable = c.in_.readable := Buffer.readable_ensureWritable ..
  -- Making room moves the bytes of the buffer and loses none.
  have hroom : Health f live .idle (s.put id { c with in_ }) := by
    refine h.turn hc hopen rfl (Function.update_eq_self ..).symm rfl rfl rfl h.cap rfl rfl
      (hserved.congr hin' rfl rfl) (Or.inl rfl) (Or.inr ⟨?_, Or.inr ⟨rfl, fun hd => ?_⟩⟩)
    · intro hstate
      rw [hin']
      exact hsettled hstate
    · have hrested : c.Rested := (h.polled hd).rested hc (Option.some_ne_none id).symm
      exact hrested
  have hc' : (s.put id { c with in_ }).heap id = some { c with in_ } := Function.update_self ..
  refine wpu_ask_bind (hroom.observed rfl ⟨_, hc', hopen⟩) fun _ r _ => ?_
  split
  · next data _ =>
    split
    · exact markBroken_spec (hroom.attend id) hc' hopen
    refine wpu_modify_bind (wpu_modify_bind ?_)
    have hread := (in_.readable_write data data.property).trans (congrArg (· ++ data.val) hin')
    -- What was read may hold whole commands, so the connection is busy until they are parsed.
    have hbusy : Health f live (.parsing id)
        (((s.put id { c with in_ }).put id { c with in_ := in_.write data data.property }).record id
          fun h => { h with received := h.received ++ data }) := by
      refine hroom.turn hc' hopen rfl rfl rfl rfl rfl h.cap rfl rfl ?_ (Or.inl rfl) (Or.inl rfl)
      exact hserved.receive hopen hread
    refine wpu_seq (processInput_spec hbusy (Function.update_self ..) hopen) ?_
    rintro _ s' ⟨hs', c'', hc'', hopen''⟩
    exact flushOutput_spec hs' hc'' hopen''
  · exact wpu_pure hroom
  · exact wpu_pure hroom
  · exact markBroken_spec (hroom.attend id) hc' hopen

/-- The writing handler, from idle to idle. -/
theorem onWritable_spec (h : Health f live .idle s) (hlive : id ∈ live) :
    Meets f (onWritable id) (fun _ => Health f live .idle) s := by
  obtain ⟨c, hc⟩ := h.live id hlive
  refine wpu_connection hc ?_
  split
  · exact wpu_pure h
  · next hclosed => exact flushOutput_spec (h.attend id) hc (by simpa [closed] using hclosed)

end Connection

end TinyRedis

import TinyRedis.Proofs.Command.Emits
import TinyRedis.Proofs.Store.Outcomes

/-!
# `TinyRedis.Proofs.Command.Failures`: a command that fails changes nothing

Every handler leaves the store as it found it or answers with something other than an error
(`SparesOnError`). For most error replies this is plain from the handler, which answers before its
first call into the store. The OOM reply is the exception: `set` has looked its key up by then, and
a lookup may delete. It has not deleted anything, for the store would have had room.

* `Store.set_refused`: a `set` that is refused leaves the store as it was.
* `SparesOnError.same`, `reply`, `bind`: how the property composes over the shape of a handler.
* `handle_sparesOnError`: every handler has it.
* `dispatch_error_unchanged`: a command that is answered with an error has changed nothing, in any
  store that can be reached.

An error is told by its first byte: no other reply starts with a minus sign
(`RespReply.head?_encode`).
-/

set_option autoImplicit false

namespace TinyRedis

/-- An error reply. -/
def RespReply.isError : RespReply → Bool
  | .error _ => true
  | _ => false

/-- Only an error reply begins with a minus sign. -/
theorem RespReply.head?_encode {r : RespReply} (h : r.isError = false) :
    r.encode.head? ≠ some 45 := by
  cases r with
  | error msg => cases h
  | simpleString s => simp [encode]
  | integer v => simp [encode]
  | bulk s => simp [encode]
  | nullBulk => decide

variable [EntryPool]

/-- A `set` that is refused has changed nothing. -/
theorem Store.set_refused {s s' : Store} (hs : Sound s) {key value : Bytes}
    {expireAtMs now : Int64} (hset : s.set key value expireAtMs now = some (false, s')) :
    s' = s := by
  have hpast : ¬ Past expireAtMs now := by
    intro hpast
    obtain ⟨s'', hset', -⟩ := set_past hs.inv key value hpast
    rw [hset] at hset'
    cases hset'
  obtain ⟨found, s₁, hlook, -⟩ := lookup_spec hs.inv key now
  cases found with
  | some p =>
    -- An overwrite is never refused.
    have hif : ¬ (expireAtMs ≠ kNoExpiry ∧ expireAtMs ≠ kKeepTtl ∧ expireAtMs < now) := hpast
    simp only [Store.set, hlook, Option.bind_eq_bind, Option.bind_some, if_neg hif,
      Option.bind_eq_some_iff] at hset
    obtain ⟨t, -, s₂, -, heq⟩ := hset
    cases heq
  | none =>
    rw [set_absent hlook hpast] at hset
    simp only [Option.bind_eq_bind, Option.bind_eq_some_iff] at hset
    obtain ⟨⟨ok, s₂⟩, hroom, hset⟩ := hset
    rcases makeRoom_cases hroom with ⟨rfl, -⟩ | ⟨rfl, rfl, hfull, -⟩ | ⟨rfl, -⟩
    · simp only [if_true, Option.bind_eq_some_iff] at hset
      obtain ⟨s₃, -, heq⟩ := hset
      cases heq
    · cases hset
      -- A lookup that deletes leaves room.
      rcases lookup_cases hs.inv hlook with ⟨heq, -⟩ | ⟨-, hsize, hrest⟩
      · exact heq
      · have hmax : s₂.maxKeys = s.maxKeys := by rw [hrest]
        have hle := hs.size_le
        omega
    · simp only [if_true, Option.bind_eq_some_iff] at hset
      obtain ⟨s₃, -, heq⟩ := hset
      cases heq

/-- The handler leaves the store `s` as it is, or answers with something other than an error. -/
def SparesOnError (s : Store) (f : Buffer → Option (Store × Buffer)) : Prop :=
  ∀ out s' out', f out = some (s', out') →
    s' = s ∨ ∃ r : RespReply, r.isError = false ∧ out' = r.emit out

namespace SparesOnError

variable {s : Store}

/-- A handler that does not touch the store. -/
theorem same (g : Buffer → Buffer) : SparesOnError s fun out => some (s, g out) := by
  intro out s' out' hrun
  cases hrun
  exact Or.inl rfl

/-- A reply that is no error says nothing about the store. -/
theorem reply (s' : Store) {r : RespReply} (h : r.isError = false) :
    SparesOnError s fun out => some (s', r.emit out) := by
  intro out s'' out' hrun
  cases hrun
  exact Or.inr ⟨r, h, rfl⟩

/-- A simple string is no error. -/
theorem simpleString (s' : Store) (text : Bytes) :
    SparesOnError s fun out => some (s', reply.simpleString out text) :=
  SparesOnError.reply s' (r := .simpleString text) rfl

/-- An integer is no error. -/
theorem integer (s' : Store) (v : Int64) :
    SparesOnError s fun out => some (s', reply.integer out v) :=
  SparesOnError.reply s' (r := .integer v) rfl

/-- A bulk string is no error. -/
theorem bulk (s' : Store) (text : Bytes) :
    SparesOnError s fun out => some (s', reply.bulk out text) :=
  SparesOnError.reply s' (r := .bulk text) rfl

/-- The null bulk is no error. -/
theorem nullBulk (s' : Store) : SparesOnError s fun out => some (s', reply.nullBulk out) :=
  SparesOnError.reply s' (r := .nullBulk) rfl

/-- A call before the reply. -/
theorem bind {α : Type} {a : Option α} {f : α → Buffer → Option (Store × Buffer)}
    (h : ∀ x, a = some x → SparesOnError s (f x)) :
    SparesOnError s fun out => a.bind fun x => f x out := by
  cases a with
  | none =>
    intro out s' out' hrun
    cases hrun
  | some x => exact h x rfl

end SparesOnError

/-! ### The handlers -/

section Handlers

variable {s : Store} (cmd : Command) (now : Int64)

/-- `SET`: its options are read first, and a refused key leaves the store as it was. -/
theorem cmdSet_sparesOnError (hs : s.Sound) : SparesOnError s (cmdSet s cmd now) := by
  unfold cmdSet
  cases setOptions now (cmd.args.drop 3) kNoExpiry false with
  | error e => cases e <;> exact .same _
  | ok expireAt =>
    refine .bind fun ⟨stored, s'⟩ hset => ?_
    cases stored with
    | false =>
      obtain rfl := Store.set_refused hs hset
      exact .same _
    | true => exact .simpleString s' _

/-- `EXPIRE`: its number is read first, and after that there is no error. -/
theorem cmdExpire_sparesOnError : SparesOnError s (cmdExpire s cmd now) := by
  unfold cmdExpire
  cases parseInt (cmd.get 2) with
  | none => exact .same _
  | some secs =>
    dsimp only
    by_cases hsecs : secs ≤ 0
    · simp only [if_pos hsecs]
      exact .bind fun ⟨erased, s'⟩ _ => .integer s' _
    · simp only [if_neg hsecs]
      cases deadline secs kMsPerSec now with
      | none => exact .same _
      | some expireAt => exact .bind fun ⟨updated, s'⟩ _ => .integer s' _

/-- `GET` has no error. -/
theorem cmdGet_sparesOnError : SparesOnError s (cmdGet s cmd now) := by
  refine .bind fun ⟨e, s'⟩ _ => ?_
  cases e with
  | none => exact .nullBulk s'
  | some p => exact .bind fun e _ => .bind fun value _ => .bulk s' value

/-- `FLUSHALL`: its argument is read first. -/
theorem cmdFlushall_sparesOnError : SparesOnError s (cmdFlushall s cmd) := by
  unfold cmdFlushall
  split
  · exact .same _
  · exact .bind fun s' _ => .simpleString s' _

/-- Every handler spares the store when it answers with an error. -/
theorem handle_sparesOnError (hs : s.Sound) (c : Cmd) : SparesOnError s (handle s c cmd now) := by
  cases c with
  | kGet => exact cmdGet_sparesOnError cmd now
  | kSet => exact cmdSet_sparesOnError cmd now hs
  | kDel => exact .bind fun ⟨s', n⟩ _ => .integer s' n
  | kExists => exact .bind fun ⟨s', n⟩ _ => .integer s' n
  | kExpire => exact cmdExpire_sparesOnError cmd now
  | kTtl => exact .bind fun ⟨_, s'⟩ _ => .integer s' _
  | kPing | kEcho | kDbsize | kQuit => exact .same _
  | kFlushall => exact cmdFlushall_sparesOnError cmd

end Handlers

/-- A command that fails changes nothing. On every store that calls can reach, under either policy,
a command whose reply begins with a minus sign leaves the store as it was, in all its parts. -/
theorem dispatch_error_unchanged {cfg : Config} {s : Store} (hreach : Store.Reachable cfg s)
    (cmd : Command) (now : Int64) (out : Buffer) {d : DispatchResult} {s' : Store} {out' : Buffer}
    (hdispatch : dispatch s cmd now out = some (d, s', out')) {bytes : Bytes}
    (hreply : out'.readable = out.readable ++ bytes) (herror : bytes.head? = some 45) : s' = s := by
  unfold dispatch at hdispatch
  split at hdispatch
  · cases hdispatch
    rfl
  split at hdispatch
  · cases hdispatch
    rfl
  · next spec _ =>
    split at hdispatch
    · cases hdispatch
      rfl
    · simp only [Option.bind_eq_bind, Option.bind_eq_some_iff] at hdispatch
      obtain ⟨⟨s'', out''⟩, hhandle, heq⟩ := hdispatch
      cases heq
      rcases handle_sparesOnError cmd now hreach.sound spec.cmd out s'' out'' hhandle with
        hsame | ⟨r, hr, rfl⟩
      · exact hsame
      · -- The reply is not an error, so it does not begin like one.
        rw [RespReply.readable_emit, List.append_cancel_left_eq] at hreply
        rw [← hreply] at herror
        exact absurd herror (RespReply.head?_encode hr)

omit [EntryPool] in
/-- A store of one key that does not evict refuses a second key, and holds what it held. -/
theorem dispatch_error_unchanged_oom : letI := slabPool
    let cfg : Config := { maxKeys := 1, seed := 7, initialBuckets := 4 }
    let cmd : Command := (parseCommand (ascii "SET b 2\r\n") Command.empty).2
    ∃ s₀ s s' : Store, ∃ d out', Store.new cfg 0 = some s₀ ∧
      s₀.set [1] [2] (-1) 10 = some (true, s) ∧
      dispatch s cmd 20 (Buffer.new 0) = some (d, s', out') ∧
      out'.readable = RespReply.encode (.error kOom) ∧ s' = s := by
  let _ := slabPool
  intro cfg cmd
  obtain ⟨s₀, s, hnew, hset, hreach, hsize, hview⟩ := Store.exists_reachable_single 0
    (show cfg.initialBuckets ≤ 2 ^ 63 by decide) (show cfg.maxKeys ≤ kPoolCapacity by decide)
    (show ([1] : Bytes).length + ([2] : Bytes).length < 2 ^ 32 by decide)
    (show ¬ Store.Past (-1) 10 by decide)
  obtain ⟨hmax, -, hpolicy⟩ := hreach.config
  have habsent : s.view (cmd.get 1) = none := by
    rw [hview, Function.update_of_ne (by decide)]
  have hfull : s.size ≥ s.maxKeys := by
    rw [hsize, hmax]
    decide
  have hrefused : s.set (cmd.get 1) (cmd.get 2) kNoExpiry 20 = some (false, s) := by
    rw [Store.set_absent (Store.lookup_absent hreach.sound.inv habsent 20) (by decide),
      Store.makeRoom, if_pos hfull, hpolicy]
    rfl
  have hdispatch := dispatch_set_ok (show cmd.IsSet by decide)
    (show setOptions 20 (cmd.args.drop 3) kNoExpiry false = .ok kNoExpiry from rfl) hrefused
    (Buffer.new 0)
  have hread : (reply.error (Buffer.new 0) kOom).readable = RespReply.encode (.error kOom) := by
    rw [← RespReply.emit, RespReply.readable_emit, Buffer.readable_new, List.nil_append]
  refine ⟨s₀, s, s, _, _, hnew, hset, hdispatch, hread, ?_⟩
  exact dispatch_error_unchanged hreach cmd 20 (Buffer.new 0) hdispatch
    (hread.trans (by rw [Buffer.readable_new, List.nil_append])) rfl

end TinyRedis

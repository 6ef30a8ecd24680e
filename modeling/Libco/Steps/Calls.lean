import Libco.Invariant

/-!
# Calls are made of moves

Yielding, sleeping, mutexes, condition variables and channels: each function up
to its return or context switch is a sequence of moves.
-/

namespace Libco
open Lib

variable {run : Prop} {cur : Option Nat} {s s' s₀ : St} {a : Act} {c : Nat}

/-! ## Sequences of moves -/

theorem Moves.refl (p : Option Nat × St) : Moves s₀ a p p := Relation.ReflTransGen.refl

theorem Moves.trans {p p' p'' : Option Nat × St} (h : Moves s₀ a p p')
    (h' : Moves s₀ a p' p'') : Moves s₀ a p p'' :=
  Relation.ReflTransGen.trans h h'

theorem Move.moves {os : List Obj} {p p' : Option Nat × St} (h : Move s₀ a os p p') :
    Moves s₀ a p p' := Relation.ReflTransGen.single ⟨os, h⟩

theorem Moves.inv {p p' : Option Nat × St} (h : Moves s₀ a p p')
    (hal : run → a.allocFails = false) (hi : Inv run p.1 p.2.toSched) :
    Inv run p'.1 p'.2.toSched := by
  induction h with
  | refl => exact hi
  | tail _ hm ih =>
    obtain ⟨os, hm⟩ := hm
    exact hm.inv hal ih

/-- Code that returns does so in the caller's code; code that switches away does
so after the coroutine has suspended. -/
def Outcome.Via (R : Option Nat × St → Prop) (cur : Option Nat) : Outcome → Prop
  | .ret _ t => R (cur, t) ∧ t.coCurrent = cur
  | .swap t => R (none, t)
  | .abort => True

/-- A call returned: an API call without suspending, or a resumed one. -/
inductive Returns (s : St) : Act → St → Nat → Ret → Prop
  | call {op : Op} {r : Ret} {t : St} (h : runOp (beginCall s op) s.calls op = .ret r t)
      (hm : Moves s (.call op) (s.coCurrent, beginCall s op) (s.coCurrent, t))
      (hcur : t.coCurrent = s.coCurrent) : Returns s (.call op) t s.calls r
  | resumed {c : Nat} {rest : List Nat} {e : ResumeEnv} {r : Ret} {t : St}
      (hq : s.queues .ready = c :: rest) (hf : (s.co c).frame ≠ .entry)
      (h : resume (switchTo { s with queues := Function.update s.queues .ready rest } c) c e
        (s.co c).frame = .ret r t)
      (hcur : t.coCurrent = some c) : Returns s (.schedule e) t (s.co c).call r

/-- A step is made of moves and at most one return. -/
def Decomposes (s : St) (a : Act) (s' : St) : Prop :=
  ∃ cur t, Moves s a (s.coCurrent, s) (cur, t) ∧ (s'.ctl ≠ .aborted → s'.coCurrent = cur) ∧
    (s' = t ∨ ∃ k r, t.coCurrent = cur ∧ s' = t.emit (.ret k r) ∧ Returns s a t k r)

/-- Every coroutine is in its place, and control is in the one that runs. -/
def Placed (run : Prop) (s : St) : Prop :=
  ∃ cur, Inv run cur s.toSched ∧ (s.ctl ≠ .aborted → s.coCurrent = cur)

/-! ## Wake-ups -/

theorem wake_front {q : QueueRef} {rest : List Nat} (g : Routine → Routine) (hq : q ≠ .ready)
    (s : St) :
    (coQueuePushBack ({ s with queues := Function.update s.queues q rest }.modify c g)
      .ready c).emit (.ready c) = wakeAll s q [c] rest g := by
  have hco : Function.update s.co c (g (s.co c)) =
      fun d => if d ∈ [c] then g (s.co d) else s.co d := by
    funext d
    by_cases hd : d = c
    · simp [hd]
    · simp [hd]
  simp only [coQueuePushBack, St.modify, St.emit, wakeAll, hco, Function.update_of_ne hq.symm]
  rfl

theorem wakeAll_nil {q : QueueRef} (g : Routine → Routine) (hq : s.queues q = []) :
    wakeAll s q [] [] g = s := by
  have hu : Function.update s.queues q [] = s.queues := by
    rw [← hq, Function.update_eq_self]
  simp [wakeAll, hu]

theorem wakeAll_cons {q : QueueRef} {ws rest : List Nat} (g : Routine → Routine) (hq : q ≠ .ready)
    (hg : ∀ r, g (g r) = g r) :
    wakeAll (wakeAll s q [c] (ws ++ rest) g) q ws rest g = wakeAll s q (c :: ws) rest g := by
  have hco : (fun d => if d ∈ ws then g (if d ∈ [c] then g (s.co d) else s.co d)
      else if d ∈ [c] then g (s.co d) else s.co d) =
      fun d => if d ∈ c :: ws then g (s.co d) else s.co d := by
    funext d
    by_cases hd : d = c
    · simp [hd, hg]
    · simp [hd]
  have hqs : Function.update (Function.update (Function.update
      (Function.update s.queues q (ws ++ rest)) .ready (s.queues .ready ++ [c])) q rest) .ready
      (s.queues .ready ++ c :: ws) =
      Function.update (Function.update s.queues q rest) .ready (s.queues .ready ++ c :: ws) := by
    funext p
    by_cases hp : p = .ready
    · simp [hp]
    · by_cases hpq : p = q
      · simp [hpq, hq]
      · simp [hp, hpq]
  simp only [wakeAll, Function.update_self, hco, hqs, List.append_assoc, List.map_cons,
    List.map_nil, List.cons_append, List.nil_append]

/-- A drained queue is woken as a whole. -/
theorem drainQueue_eq {q : QueueRef} {wake : St → Nat → St} (g : Routine → Routine)
    (hq : q ≠ .ready) (hg : ∀ r, g (g r) = g r)
    (hw : ∀ s c, wake s c = (coQueuePushBack (s.modify c g) .ready c).emit (.ready c)) (s : St) :
    drainQueue wake q (s.queues q).length s = wakeAll s q (s.queues q) [] g := by
  generalize hws : s.queues q = ws
  induction ws generalizing s with
  | nil =>
    rw [wakeAll_nil g hws]
    rfl
  | cons c ws ih =>
    have hstep : wake { s with queues := Function.update s.queues q ws } c =
        wakeAll s q [c] ws g := by
      rw [hw, wake_front g hq]
    have hrest : (wakeAll s q [c] ws g).queues q = ws := by
      simp [wakeAll, hq]
    simp only [List.length_cons, drainQueue, coQueuePopFront_cons hws]
    rw [hstep, ih _ hrest]
    have hcons : wakeAll (wakeAll s q [c] (ws ++ []) g) q ws [] g = wakeAll s q (c :: ws) [] g :=
      wakeAll_cons g hq hg
    rwa [List.append_nil] at hcons

theorem drainQueue_coCurrent {q : QueueRef} {wake : St → Nat → St}
    (hw : ∀ s c, (wake s c).coCurrent = s.coCurrent) (n : Nat) (s : St) :
    (drainQueue wake q n s).coCurrent = s.coCurrent := by
  induction n generalizing s with
  | zero => rfl
  | succ n ih =>
    simp only [drainQueue, coQueuePopFront]
    cases s.queues q with
    | nil => rfl
    | cons c rest =>
      dsimp only
      rw [ih, hw]
      rfl

/-! ## The begin of a call -/

theorem beginCall_trace (s₀ : St) (op : Op) :
    (beginCall s₀ op).trace = s₀.trace ++ [Event.call s₀.calls s₀.coCurrent op.name] := by
  simp only [beginCall]
  split <;> rfl

theorem beginCall_coCurrent (s₀ : St) (op : Op) :
    (beginCall s₀ op).coCurrent = s₀.coCurrent := by
  simp only [beginCall]
  split <;> rfl

theorem beginCall_mutexes (s : St) (op : Op) : (beginCall s op).mutexes = s.mutexes := by
  simp only [beginCall]
  split <;> rfl

theorem beginCall_queues (s : St) (op : Op) : (beginCall s op).queues = s.queues := by
  simp only [beginCall]
  split <;> rfl

theorem beginCall_ctl (s : St) (op : Op) : (beginCall s op).ctl = s.ctl := by
  simp only [beginCall]
  split <;> rfl

theorem beginCall_chans (s : St) (op : Op) : (beginCall s op).chans = s.chans := by
  simp only [beginCall]
  split <;> rfl

theorem beginCall_frame (s : St) (op : Op) (d : Nat) :
    ((beginCall s op).co d).frame = (s.co d).frame := by
  simp only [beginCall]
  split
  · rename_i c _
    by_cases hd : d = c
    · simp [St.modify, St.emit, hd]
    · simp [St.modify, St.emit, hd]
  · rfl

/-! ## Yield, sleep, mutexes -/

theorem St.modify_modify (s : St) (c : Nat) (f g : Routine → Routine) :
    (s.modify c f).modify c g = s.modify c fun r => g (f r) := by
  simp [St.modify]

theorem coTimerHeapPush_none {key : Nat → Nat} {h : TimerHeap} {ok : Bool}
    (hp : coTimerHeapPush key h c ok = none) : ok = false ∧ h.capacity ≤ h.entries.length := by
  unfold coTimerHeapPush at hp
  split at hp
  · rename_i hfull
    split at hp
    · cases hp
    · rename_i hok
      exact ⟨by simpa using hok, hfull⟩
  · cases hp

/-- The running coroutine gets a timer. -/
theorem Inv.armed {r : Routine} {t t' : Sched} {ok : Bool} {hp : TimerHeap}
    (h : Inv run (some c) s.toSched) (hco : t.co = Function.update s.co c r)
    (hkey : t'.key = t.key) (hpush : coTimerHeapPush t.key s.timerHeap c ok = some hp)
    (hh : t'.timerHeap = hp) : s.Armed t' c true := by
  obtain ⟨-, hz⟩ := h.out rfl
  have hord : Heaped t.key s.timerHeap.entries :=
    heaped_of_fresh_key h.ordered hco (List.count_eq_zero.mp hz)
  have := coTimerHeapPush_spec hord hpush
  simp only [Sched.Armed, if_true]
  rw [hkey, hh]
  exact this

theorem Inv.cur_fields (h : Inv run (some c) s.toSched) :
    (s.co c).frame = .user ∧ (s.co c).condWaitQueue = none ∧ (s.co c).ioWaiting = false := by
  have huser := (h.user c).mpr rfl
  have hs := h.seated c
  refine ⟨huser, ?_, ?_⟩
  · rw [hs.cond]
    simp [Routine.condPtr, huser]
  · rw [hs.io]
    simp [Routine.ioFlag, huser, Frame.isIo]

theorem coYieldNow_via {op : Op} (hb : Begins s₀ a s op)
    (hf : Frame.yieldNow.fits op.name = true) :
    (coYieldNow s).Via (Moves s₀ a (s.coCurrent, s)) s.coCurrent := by
  unfold coYieldNow
  cases hc : s.coCurrent with
  | none => exact ⟨.refl _, hc⟩
  | some c => exact (Move.yieldNow hb hf).moves

theorem coSleep_via {msec now : Nat} {ok : Bool} (h : Inv run s.coCurrent s.toSched)
    (hb : Begins s₀ a s (.sleep msec now ok)) :
    (coSleep s msec now ok).Via (Moves s₀ a (s.coCurrent, s)) s.coCurrent := by
  unfold coSleep
  split
  · exact coYieldNow_via hb rfl
  · cases hc : s.coCurrent with
    | none => exact ⟨.refl _, hc⟩
    | some c =>
      rw [hc] at h
      obtain ⟨huser, hcw, hiw⟩ := h.cur_fields
      dsimp only
      split
      · rename_i hpush
        refine ⟨Move.moves (.touch
          (r := { s.co c with wakeupTime := (now + msec) % 2 ^ 64, state := .ready })
          ?_ (.inr ?_)), hc⟩
        · rw [St.modify_modify]
          exact ⟨rfl, huser, rfl, hcw, hiw, rfl, rfl, ⟨rfl, rfl, rfl⟩, ⟨rfl, rfl, rfl⟩, rfl⟩
        · rw [hb.1, Act.allocFails, (coTimerHeapPush_none hpush).1]
          rfl
      · rename_i hp hpush
        let r : Routine :=
          { s.co c with
            wakeupTime := (now + msec) % 2 ^ 64, state := .waiting, frame := .sleep }
        refine Move.moves (Move.block (r := r) hb rfl ?_ (fun _ => rfl) (by simp [r, Frame.isIo]))
        rw [St.modify_modify]
        refine ⟨rfl, rfl, rfl, by simp [r], rfl, rfl, ?_, fun _ hne => absurd rfl hne, hcw, hiw, rfl, rfl, rfl,
          ⟨rfl, rfl, rfl⟩, by simp [blockEvents]; rfl, trivial⟩
        refine h.armed rfl ?_ hpush rfl
        funext d
        by_cases hd : d = c <;> simp [Sched.key, St.modify, hd]

theorem coMutexLock_via {m : Nat} {op : Op} (h : Inv run s.coCurrent s.toSched)
    (hb : Begins s₀ a s op) (hop : op.name = .lock m) :
    (coMutexLock s m).Via (Moves s₀ a (s.coCurrent, s)) s.coCurrent := by
  unfold coMutexLock
  cases hc : s.coCurrent with
  | none =>
    dsimp only
    split
    · exact ⟨.refl _, hc⟩
    · rename_i hl
      have htake : Move s₀ a [.mutex m] (_, s) _ :=
        .take (by simpa using hl) hc (.inl ⟨op, hb.1, .inl hop⟩)
      rw [hc] at htake
      exact ⟨htake.moves, hc⟩
  | some c =>
    dsimp only
    rw [hc] at h
    obtain ⟨huser, hcw, hiw⟩ := h.cur_fields
    split
    · rename_i hl
      have htake : Move s₀ a [.mutex m] (_, s) _ :=
        .take (by simpa using hl) hc (.inl ⟨op, hb.1, .inl hop⟩)
      rw [hc] at htake
      exact ⟨htake.moves, hc⟩
    · rename_i hl
      refine Move.moves (Move.block (r := { s.co c with state := .waiting, frame := .lock m }) hb
        (by simp [hop, Frame.fits]) ?_ (by simp [Frame.timed]) (by simp [Frame.isIo]))
      exact ⟨rfl, rfl, rfl, by simp, rfl, rfl, rfl, by simp [Frame.timed], hcw, hiw, rfl, rfl, rfl,
        ⟨rfl, rfl, rfl⟩, rfl, by simpa [mustBlock] using hl⟩

theorem coMutexTrylock_via {m : Nat} {op : Op} (hb : Begins s₀ a s op)
    (hop : op.name = .trylock m) :
    (coMutexTrylock s m).Via (Moves s₀ a (s.coCurrent, s)) s.coCurrent := by
  unfold coMutexTrylock
  split
  · exact ⟨.refl _, rfl⟩
  · rename_i hl
    exact ⟨(Move.take (by simpa using hl) rfl (.inl ⟨op, hb.1, .inr hop⟩)).moves, rfl⟩

/-- What an unlock does: free the mutex, or hand it to the first waiter. -/
theorem coMutexUnlock_cases {m : Nat} (hu : coMutexUnlock s m = some s') :
    (s.mutexes m).locked = true ∧
      ((s.queues (.mutex m) = [] ∧
        s' = (s.emit (.release m s.coCurrent)).setMutex m ⟨false, none⟩) ∨
      ∃ c rest, s.queues (.mutex m) = c :: rest ∧
        s' = wakeAll (((s.emit (.release m s.coCurrent)).setMutex m
          { s.mutexes m with owner := some c }).emit (.handoff m c)) (.mutex m) [c] rest .wake) := by
  unfold coMutexUnlock at hu
  split at hu
  · rename_i hl
    refine ⟨hl, ?_⟩
    dsimp only at hu
    cases hq : s.queues (.mutex m) with
    | nil =>
      rw [coQueuePopFront_nil (s := s.emit _) hq, Option.some.injEq] at hu
      exact .inl ⟨rfl, hu.symm⟩
    | cons c rest =>
      rw [coQueuePopFront_cons (s := s.emit _) hq, Option.some.injEq] at hu
      refine .inr ⟨c, rest, rfl, ?_⟩
      rw [← wake_front _ (by simp), ← hu]
      rfl
  · cases hu

theorem coMutexUnlock_moves {m : Nat} {op : Op} (hu : coMutexUnlock s m = some s')
    (ha : a = .call op) (hop : op.name.unlocked = some m)
    (hpre : SinceCall s₀ s op m) (hcur : s.coCurrent = s₀.coCurrent) :
    Moves s₀ a (cur, s) (cur, s') ∧ s'.coCurrent = s.coCurrent := by
  obtain ⟨hl, ⟨hq, rfl⟩ | ⟨c, rest, hq, rfl⟩⟩ := coMutexUnlock_cases hu
  · exact ⟨(Move.unlock ha hop hpre hcur hl hq).moves, rfl⟩
  · exact ⟨(Move.handoff ha hop hpre hcur hl hq).moves, rfl⟩

/-! ## Condition variables -/

/-- A condition wait suspends and unlocks its mutex. -/
theorem block_unlock {r : Routine} {op : Op} {m : Nat} (hb : Begins s₀ a s op)
    (hf : r.frame.fits op.name = true) (h : Blocks s s' c r)
    (hd : r.frame.timed = true → op.due = some r.wakeupTime)
    (hto : r.frame.isIo = true → r.timedOut = false) (hop : op.name.unlocked = some m)
    (ho : ∀ e ∈ blockEvents s c r, e.obj ≠ some (.mutex m)) (hctl : s'.ctl = s.ctl) :
    Outcome.Via (Moves s₀ a (some c, s)) cur
      (match coMutexUnlock s' m with
        | none => .abort
        | some s => .swap s) := by
  have hpre : SinceCall s₀ s' op m := by
    refine ⟨blockEvents s c r, ?_, ho⟩
    rw [h.trace, hb.2, beginCall_trace]
    simp
  have hcur : s'.coCurrent = s₀.coCurrent := by
    have : s'.coCurrent = s.coCurrent := by simp [St.coCurrent, hctl]
    rw [this, hb.2, beginCall_coCurrent]
  cases hu : coMutexUnlock s' m with
  | none => trivial
  | some t =>
    exact (Move.block hb hf h hd hto).moves.trans (coMutexUnlock_moves hu hb.1 hop hpre hcur).1

theorem coCondWait_via {v m : Nat} (h : Inv run s.coCurrent s.toSched)
    (hb : Begins s₀ a s (.condWait v m)) :
    (coCondWait s v m).Via (Moves s₀ a (s.coCurrent, s)) s.coCurrent := by
  unfold coCondWait
  cases hc : s.coCurrent with
  | none => exact ⟨.refl _, hc⟩
  | some c =>
    dsimp only
    rw [hc] at h
    obtain ⟨huser, hcw, hiw⟩ := h.cur_fields
    let r : Routine := { s.co c with state := .waiting, frame := .condWait v m }
    refine block_unlock (r := r) hb ?_ ?_ (by simp [r, Frame.timed]) (by simp [r, Frame.isIo]) rfl
      ?_ rfl
    · simp [r, Frame.fits, Op.name]
    · refine ⟨rfl, rfl, rfl, by simp [r], rfl, rfl, rfl, by simp [r, Frame.timed], hcw, hiw, rfl,
        rfl, rfl, ⟨rfl, rfl, rfl⟩, ?_, trivial⟩
      simp [r, blockEvents, St.emit, coQueuePushBack, St.modify]
    · simp [blockEvents, r, Event.obj]

theorem erase_append_self {l : List Nat} (h : l.count c = 0) : (l ++ [c]).erase c = l := by
  rw [List.erase_append_right _ (List.count_eq_zero.mp h)]
  simp

theorem coCondTimedwait_via {v m timeoutMs now : Nat} {ok : Bool}
    (h : Inv run s.coCurrent s.toSched)
    (hb : Begins s₀ a s (.condTimedwait v m timeoutMs now ok)) :
    (coCondTimedwait s v m timeoutMs now ok).Via (Moves s₀ a (s.coCurrent, s)) s.coCurrent := by
  unfold coCondTimedwait
  split
  · exact ⟨.refl _, rfl⟩
  cases hc : s.coCurrent with
  | none => exact ⟨.refl _, hc⟩
  | some c =>
    dsimp only
    rw [hc] at h
    obtain ⟨huser, hcw, hiw⟩ := h.cur_fields
    split
    · -- the timer heap cannot grow: the coroutine is unlinked again, and left `READY`
      rename_i hpush
      let r : Routine :=
        { s.co c with
          wakeupTime := (now + timeoutMs) % 2 ^ 64, state := .ready, timedOut := false
          condWaitQueue := none }
      refine ⟨Move.moves (.touch (r := r) ?_ (.inr ?_)), hc⟩
      · refine ⟨?_, huser, rfl, rfl, hiw, ?_, rfl, ⟨rfl, rfl, rfl⟩, ⟨rfl, rfl, rfl⟩, rfl⟩
        · simp [coQueueRemove, coQueuePushBack, St.modify, r]
        · simp [coQueueRemove, coQueuePushBack, St.modify, erase_append_self ((h.out rfl).1 _)]
      · rw [hb.1, Act.allocFails, (coTimerHeapPush_none hpush).1]
        rfl
    · rename_i hp hpush
      let r : Routine :=
        { s.co c with
          wakeupTime := (now + timeoutMs) % 2 ^ 64, state := .waiting, timedOut := false
          condWaitQueue := some v, frame := .timedWait v m }
      have hco : ∀ f : Routine → Routine,
          ((coQueuePushBack (s.modify c fun r =>
            { r with state := .waiting, condWaitQueue := some v, timedOut := false })
              (.cond v) c).modify c f).co = Function.update s.co c (f
                { s.co c with state := .waiting, condWaitQueue := some v, timedOut := false }) := by
        intro f
        simp [coQueuePushBack, St.modify]
      refine block_unlock (r := r) hb ?_ ?_ (fun _ => rfl) (fun _ => rfl) rfl ?_ rfl
      · simp [r, Frame.fits, Op.name]
      · refine ⟨?_, rfl, rfl, by simp [r], rfl, rfl, ?_, fun _ _ => rfl, rfl, hiw, rfl, rfl, rfl,
          ⟨rfl, rfl, rfl⟩, ?_, trivial⟩
        · simp [r, coQueuePushBack, St.modify, St.emit]
        · refine h.armed (hco _) ?_ hpush rfl
          funext d
          by_cases hd : d = c <;> simp [Sched.key, St.modify, St.emit, hd]
        · simp [r, blockEvents, coQueuePushBack, St.modify, St.emit]
      · simp [blockEvents, r, Event.obj]

theorem coCondSignal_moves {v : Nat} {op : Op} (hb : Begins s₀ a s op)
    (hop : op.name = .condSignal v) : Moves s₀ a (cur, s) (cur, coCondSignal s v) := by
  unfold coCondSignal
  cases hq : s.queues (.cond v) with
  | nil =>
    rw [coQueuePopFront_nil hq]
    have hmove : Move s₀ a [.cond v] (cur, s)
        (cur, wakeAll (s.emit (.signal v [])) (.cond v) [] [] .wakeCond) :=
      .notify (by simpa using hq) (.inl ⟨rfl, by simp [hq]⟩) ⟨op, hb.1, .inl hop⟩
    rw [wakeAll_nil (s := s.emit _) _ hq] at hmove
    exact hmove.moves
  | cons c rest =>
    rw [coQueuePopFront_cons hq]
    have hmove : Move s₀ a [.cond v] (cur, s)
        (cur, wakeAll (s.emit (.signal v [(s.co c).call])) (.cond v) [c] rest .wakeCond) :=
      .notify (by simpa using hq) (.inl ⟨rfl, by simp [hq]⟩) ⟨op, hb.1, .inl hop⟩
    rw [← wake_front _ (by simp)] at hmove
    simp only [wakeWaiter, wakeRoutine, St.modify_modify]
    exact hmove.moves

theorem coCondBroadcast_eq (s : St) (v : Nat) :
    coCondBroadcast s v = wakeAll (s.emit (.broadcast v ((s.queues (.cond v)).map fun c =>
      (s.co c).call))) (.cond v) (s.queues (.cond v)) [] .wakeCond := by
  have hw : ∀ (s : St) (c : Nat), wakeWaiter s c =
      (coQueuePushBack (s.modify c Routine.wakeCond) .ready c).emit (.ready c) := by
    intro s c
    simp only [wakeWaiter, wakeRoutine, St.modify_modify]
    rfl
  exact drainQueue_eq Routine.wakeCond (q := .cond v) (by simp) (fun _ => rfl) hw
    (s.emit (.broadcast v ((s.queues (.cond v)).map fun c => (s.co c).call)))

theorem coCondBroadcast_moves {v : Nat} {op : Op} (hb : Begins s₀ a s op)
    (hop : op.name = .condBroadcast v) : Moves s₀ a (cur, s) (cur, coCondBroadcast s v) := by
  have hmove : Move s₀ a [.cond v] (cur, s) (cur, wakeAll (s.emit (.broadcast v
      ((s.queues (.cond v)).map fun c => (s.co c).call))) (.cond v) (s.queues (.cond v)) []
        .wakeCond) :=
    .notify (List.append_nil _).symm (.inr ⟨rfl, rfl⟩) ⟨op, hb.1, .inr hop⟩
  rw [coCondBroadcast_eq]
  exact hmove.moves

/-! ## Channels -/

theorem beginCall_call {op : Op} (hb : Begins s₀ a s op) (hc : s.coCurrent = some c) :
    (s.co c).call = s₀.calls := by
  obtain ⟨-, rfl⟩ := hb
  rw [beginCall_coCurrent] at hc
  simp [beginCall, hc, St.modify]

section

variable {h : Nat} {data : Bytes} {op : Op}

/-- What a send does with its element: hand it to a waiting receiver, or buffer it. -/
theorem placeElement_cases {k : Nat} (hp : placeElement s h k data = some s') :
    (∃ c rest, s.queues (.recv h) = c :: rest ∧
      s' = wakeAll (deliver s h k c data) (.recv h) [c] rest .wake) ∨
    (s.queues (.recv h) = [] ∧ (s.chans h).count < (s.chans h).capacity ∧
      s' = (s.setChan h ((s.chans h).pushTail k data)).emit
        (.offer h k (data.take (s.chans h).elemSize))) := by
  unfold placeElement at hp
  dsimp only at hp
  cases hq : s.queues (.recv h) with
  | nil =>
    rw [coQueuePopFront_nil hq] at hp
    dsimp only at hp
    split at hp
    · rename_i hroom
      rw [Option.some.injEq] at hp
      exact .inr ⟨rfl, hroom, hp.symm⟩
    · cases hp
  | cons c rest =>
    rw [coQueuePopFront_cons hq, Option.some.injEq] at hp
    refine .inl ⟨c, rest, rfl, ?_⟩
    rw [← wake_front _ (by simp), ← hp]
    rfl

theorem placeElement_moves (hb : Begins s₀ a s op)
    (hop : op.name = .send h ∨ op.name = .trysend h) (hcl : (s.chans h).closed = false)
    (hp : placeElement s h s₀.calls data = some s') :
    Moves s₀ a (cur, s) (cur, s') ∧ s'.coCurrent = s.coCurrent := by
  obtain ⟨c, rest, hq, rfl⟩ | ⟨hq, hroom, rfl⟩ := placeElement_cases hp
  · exact ⟨(Move.placeHand hb hop hcl hq).moves, rfl⟩
  · exact ⟨(Move.placeRing hb hop hcl hq hroom).moves, rfl⟩

theorem placeElement_none {k : Nat} (hp : placeElement s h k data = none) :
    s.queues (.recv h) = [] ∧ (s.chans h).capacity ≤ (s.chans h).count := by
  unfold placeElement at hp
  dsimp only at hp
  cases hq : s.queues (.recv h) with
  | nil =>
    rw [coQueuePopFront_nil hq] at hp
    dsimp only at hp
    split at hp
    · cases hp
    · exact ⟨rfl, by omega⟩
  | cons c rest =>
    rw [coQueuePopFront_cons hq] at hp
    cases hp

theorem coChannelSend_via (hi : Inv run s.coCurrent s.toSched)
    (hb : Begins s₀ a s (.channelSend h data)) :
    (coChannelSend s h s₀.calls data).Via (Moves s₀ a (s.coCurrent, s)) s.coCurrent := by
  unfold coChannelSend
  split
  · exact ⟨.refl _, rfl⟩
  rename_i hcl
  rw [Bool.not_eq_true] at hcl
  cases hp : placeElement s h s₀.calls data with
  | some t => exact placeElement_moves hb (.inl rfl) hcl hp
  | none =>
    cases hc : s.coCurrent with
    | none => exact ⟨.refl _, hc⟩
    | some c =>
      rw [hc] at hi
      obtain ⟨huser, hcw, hiw⟩ := hi.cur_fields
      obtain ⟨hq, hfull⟩ := placeElement_none hp
      let r : Routine := { s.co c with chanData := data, state := .waiting, frame := .send h }
      refine Move.moves (Move.block (r := r) hb (by simp [r, Frame.fits, Op.name]) ?_
        (by simp [r, Frame.timed]) (by simp [r, Frame.isIo]))
      refine ⟨rfl, rfl, rfl, by simp [r], rfl, rfl, rfl, by simp [r, Frame.timed], hcw, hiw, rfl,
        rfl, rfl, ⟨rfl, rfl, rfl⟩, ?_, ⟨hcl, hq, hfull⟩⟩
      simp [r, blockEvents, coQueuePushBack, St.modify, St.emit, beginCall_call hb hc]

theorem coChannelTrysend_via (hb : Begins s₀ a s (.channelTrysend h data)) :
    (coChannelTrysend s h s₀.calls data).Via (Moves s₀ a (s.coCurrent, s)) s.coCurrent := by
  unfold coChannelTrysend
  split
  · exact ⟨.refl _, rfl⟩
  rename_i hcl
  rw [Bool.not_eq_true] at hcl
  cases hp : placeElement s h s₀.calls data with
  | some t => exact placeElement_moves hb (.inr rfl) hcl hp
  | none => exact ⟨.refl _, rfl⟩

/-- Where a receive finds its element: in the ring, whose free slot a blocked
sender may refill, or at a blocked sender. -/
theorem takeElement_cases {k : Nat} (ht : takeElement s h k = some s') :
    (0 < (s.chans h).count ∧ s.queues (.send h) = [] ∧
      s' = (s.storeHead h k).setChan h (s.chans h).popHead) ∨
    (∃ c rest, 0 < (s.chans h).count ∧ s.queues (.send h) = c :: rest ∧
      s' = wakeAll ((s.storeHead h k).setChan h
        ((s.chans h).popHead.pushTail (s.co c).call (s.co c).chanData)) (.send h) [c] rest .wake) ∨
    (∃ c rest, (s.chans h).count = 0 ∧ s.queues (.send h) = c :: rest ∧
      s' = wakeAll (s.emit (.store h k (s.co c).call
        ((s.co c).chanData.take (s.chans h).elemSize))) (.send h) [c] rest .wake) := by
  unfold takeElement at ht
  dsimp only at ht
  split at ht
  · rename_i hpos
    cases hq : s.queues (.send h) with
    | nil =>
      rw [coQueuePopFront_nil (s := s.emit _) hq, Option.some.injEq] at ht
      exact .inl ⟨hpos, rfl, ht.symm⟩
    | cons c rest =>
      rw [coQueuePopFront_cons (s := s.emit _) hq, Option.some.injEq] at ht
      refine .inr (.inl ⟨c, rest, hpos, rfl, ?_⟩)
      rw [← wake_front _ (by simp), ← ht]
      rfl
  · rename_i hzero
    cases hq : s.queues (.send h) with
    | nil =>
      rw [coQueuePopFront_nil hq] at ht
      cases ht
    | cons c rest =>
      rw [coQueuePopFront_cons hq, Option.some.injEq] at ht
      refine .inr (.inr ⟨c, rest, by omega, rfl, ?_⟩)
      rw [← wake_front _ (by simp), ← ht]
      rfl

theorem takeElement_moves (hb : Begins s₀ a s op)
    (hop : op.name = .recv h ∨ op.name = .tryrecv h)
    (ht : takeElement s h s₀.calls = some s') :
    Moves s₀ a (cur, s) (cur, s') ∧ s'.coCurrent = s.coCurrent := by
  obtain ⟨hpos, hq, rfl⟩ | ⟨c, rest, hpos, hq, rfl⟩ | ⟨c, rest, hzero, hq, rfl⟩ :=
    takeElement_cases ht
  · exact ⟨(Move.takeRing hb hop hpos hq).moves, rfl⟩
  · exact ⟨(Move.takeRefill hb hop hpos hq).moves, rfl⟩
  · exact ⟨(Move.takeMeet hb hop hzero hq).moves, rfl⟩

theorem takeElement_none {k : Nat} (ht : takeElement s h k = none) :
    s.queues (.send h) = [] ∧ (s.chans h).count = 0 := by
  unfold takeElement at ht
  dsimp only at ht
  split at ht
  · cases hq : s.queues (.send h) with
    | nil =>
      rw [coQueuePopFront_nil (s := s.emit _) hq] at ht
      cases ht
    | cons c rest =>
      rw [coQueuePopFront_cons (s := s.emit _) hq] at ht
      cases ht
  · cases hq : s.queues (.send h) with
    | nil => exact ⟨rfl, by omega⟩
    | cons c rest =>
      rw [coQueuePopFront_cons hq] at ht
      cases ht

theorem coChannelRecv_via (hi : Inv run s.coCurrent s.toSched)
    (hb : Begins s₀ a s (.channelRecv h)) :
    (coChannelRecv s h s₀.calls).Via (Moves s₀ a (s.coCurrent, s)) s.coCurrent := by
  unfold coChannelRecv
  cases ht : takeElement s h s₀.calls with
  | some t => exact takeElement_moves hb (.inl rfl) ht
  | none =>
    dsimp only
    split
    · exact ⟨.refl _, rfl⟩
    rename_i hcl
    rw [Bool.not_eq_true] at hcl
    cases hc : s.coCurrent with
    | none => exact ⟨.refl _, hc⟩
    | some c =>
      rw [hc] at hi
      obtain ⟨huser, hcw, hiw⟩ := hi.cur_fields
      obtain ⟨hq, hzero⟩ := takeElement_none ht
      let r : Routine := { s.co c with state := .waiting, frame := .recv h }
      refine Move.moves (Move.block (r := r) hb (by simp [r, Frame.fits, Op.name]) ?_
        (by simp [r, Frame.timed]) (by simp [r, Frame.isIo]))
      refine ⟨rfl, rfl, rfl, by simp [r], rfl, rfl, rfl, by simp [r, Frame.timed], hcw, hiw, rfl,
        rfl, rfl, ⟨rfl, rfl, rfl⟩, ?_, ⟨hcl, hq, hzero⟩⟩
      simp [r, blockEvents, coQueuePushBack, St.modify, St.emit, beginCall_call hb hc]

theorem coChannelTryrecv_via (hb : Begins s₀ a s (.channelTryrecv h)) :
    (coChannelTryrecv s h s₀.calls).Via (Moves s₀ a (s.coCurrent, s)) s.coCurrent := by
  unfold coChannelTryrecv
  cases ht : takeElement s h s₀.calls with
  | some t => exact takeElement_moves hb (.inr rfl) ht
  | none =>
    dsimp only
    split
    · exact ⟨.refl _, rfl⟩
    · exact ⟨.refl _, rfl⟩

theorem coChannelClose_eq (hcl : (s.chans h).closed = false) :
    coChannelClose s h = .ret (.code .ok)
      (wakeAll (wakeAll ((s.setChan h { s.chans h with closed := true }).emit
        (.close h ((s.queues (.send h)).map fun c => (s.co c).element (s.chans h).elemSize)))
        (.recv h) (s.queues (.recv h)) [] .wake) (.send h) (s.queues (.send h)) [] .wake) := by
  have hw : ∀ (s : St) (c : Nat), wakeRoutine s c =
      (coQueuePushBack (s.modify c Routine.wake) .ready c).emit (.ready c) := fun _ _ => rfl
  unfold coChannelClose
  rw [hcl]
  dsimp only
  rw [drainQueue_eq Routine.wake (q := .recv h) (by simp) (fun _ => rfl) hw,
    drainQueue_eq Routine.wake (q := .send h) (by simp) (fun _ => rfl) hw]
  rfl

theorem coChannelClose_via (hb : Begins s₀ a s (.channelClose h)) :
    (coChannelClose s h).Via (Moves s₀ a (s.coCurrent, s)) s.coCurrent := by
  cases hcl : (s.chans h).closed with
  | true =>
    simp only [coChannelClose, hcl, if_true]
    exact ⟨.refl _, rfl⟩
  | false =>
    rw [coChannelClose_eq hcl]
    exact ⟨(Move.close hb rfl hcl).moves, rfl⟩

end

end Libco

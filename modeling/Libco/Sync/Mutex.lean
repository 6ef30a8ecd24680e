import Libco.Routine

/-!
# `co_mutex.c`

A lock that finds the mutex taken suspends; the unlock hands the mutex to the
first waiter. A failed assertion is `abort` or `none`.
-/

namespace Libco

def coMutexLock (s : St) (m : Nat) : Outcome :=
  match s.coCurrent with
  | none =>
    if (s.mutexes m).locked then .ret (.code .busy) s
    else .ret (.code .ok) ((s.setMutex m ⟨true, none⟩).emit (.take m none))
  | some c =>
    if !(s.mutexes m).locked then
      .ret (.code .ok) ((s.setMutex m ⟨true, some c⟩).emit (.take m (some c)))
    else
      let s := s.modify c fun r => { r with state := .waiting, frame := .lock m }
      .swap ((coQueuePushBack s (.mutex m) c).emit (.wait m c))

/-- `co_mutex_lock` after the context switch. -/
def resumeLock (s : St) (c m : Nat) : Outcome :=
  if (s.mutexes m).locked && (s.mutexes m).owner == some c then
    .ret (.code .ok) (s.emit (.enter m c))
  else .abort

def coMutexTrylock (s : St) (m : Nat) : Outcome :=
  if (s.mutexes m).locked then .ret (.code .busy) s
  else .ret (.code .ok) ((s.setMutex m ⟨true, s.coCurrent⟩).emit (.take m s.coCurrent))

/-- `none` is the failed assertion that the mutex is locked. -/
def coMutexUnlock (s : St) (m : Nat) : Option St :=
  if (s.mutexes m).locked then
    let s := s.emit (.release m s.coCurrent)
    match coQueuePopFront s (.mutex m) with
    | (none, s) => some (s.setMutex m ⟨false, none⟩)
    | (some next, s) =>
      let s := s.setMutex m { s.mutexes m with owner := some next }
      some (wakeRoutine (s.emit (.handoff m next)) next)
  else none

end Libco

import Libco.Footprint

/-!
# Runs without I/O calls

No coroutine is ever in an I/O wait, so no action leaks a timer.
-/

namespace Libco
open Lib

variable {run : Prop} {s s' s₀ : St} {a : Act} {c : Nat}

/-- The action is an I/O call. -/
def Act.isIo : Act → Bool
  | .call (.io _) | .call (.ioAsync _) => true
  | _ => false

def NoIo (s : St) : Prop := ∀ c, (s.co c).frame.isIo = false

theorem noIo_update {r : Routine} (h : NoIo s) (hco : s'.co = Function.update s.co c r)
    (hr : r.frame.isIo = false) : NoIo s' := by
  intro d
  by_cases hd : d = c
  · simp [hco, hd, hr]
  · simpa [hco, hd] using h d

theorem noIo_wakeAll {q : QueueRef} {ws rest : List Nat} {g : Routine → Routine} (h : NoIo s)
    (hg : ∀ r, (g r).frame = r.frame) : NoIo (wakeAll s q ws rest g) := by
  intro d
  by_cases hd : d ∈ ws
  · simpa [wakeAll, hd, hg] using h d
  · simpa [wakeAll, hd] using h d

theorem Frame.isIo_of_fits {f : Frame} {op : Op} (h : f.fits op.name = true)
    (hop : (Act.call op).isIo = false) : f.isIo = false := by
  cases f <;> cases op <;> simp [Frame.fits, Op.name, Frame.isIo, Act.isIo] at h hop ⊢

theorem Frame.relocking_isIo {f f' : Frame} {m : Nat} (h : f.relocking = some (m, f')) :
    f'.isIo = false := by
  obtain ⟨v, ⟨-, rfl⟩ | ⟨-, rfl⟩⟩ := Frame.relocking_spec h <;> rfl

theorem Move.noIo {os : List Obj} {p p' : Option Nat × St} (hm : Move s₀ a os p p')
    (ha : a.isIo = false) (h₀ : NoIo s₀) (h : NoIo p.2) : NoIo p'.2 := by
  cases hm with
  | admin had =>
    intro c
    simpa [had.co] using h c
  | invoke hop =>
    simp only [beginCall]
    split
    · exact noIo_update (s := s₀) h₀ rfl (h₀ _)
    · exact h₀
  | skipId p => exact h
  | spawn hs =>
    obtain ⟨b, n, hco⟩ := hs.co
    exact noIo_update h hco rfl
  | @finish c s s' hs' =>
    obtain ⟨pool, he⟩ := finish_eq s c
    rw [hs', he]
    exact noIo_update h rfl rfl
  | @yieldNow c op s hb hf =>
    refine noIo_update (c := c) (r := { s.co c with frame := .yieldNow, state := .ready }) h ?_ rfl
    simp [coSchedulerEnqueue, coQueuePushBack, St.modify, St.emit]
  | block hb hf hbl => exact noIo_update h hbl.co (Frame.isIo_of_fits hf (hb.1 ▸ ha))
  | @drain c s s' r x y hold hf hbl =>
    have := h₀ c
    rw [hold.1] at this
    cases this
  | touch ht hs =>
    refine noIo_update h ht.co ?_
    rw [ht.frame]
    rfl
  | dispatch hd => exact noIo_update h hd.co rfl
  | relock hr => exact noIo_update h hr.co (Frame.relocking_isIo hr.relocking)
  | expire he => exact noIo_update h he.co (h _)
  | dropTimer hs hord hperm => exact h
  | @polled cur c f s s' hp =>
    have := h c
    rw [hp.like.io] at this
    cases this
  | take hfree hcur => exact h
  | unlock hop1 hop hpre hcur hl hq => exact h
  | @handoff cur m c rest op s hop1 hop hpre hcur hl hq =>
    exact noIo_wakeAll (s := ((s.emit _).setMutex m _).emit _) h fun _ => rfl
  | @notify cur v ws rest e s hq he => exact noIo_wakeAll (s := s.emit e) h fun _ => rfl
  | @placeHand cur h' c rest data op s hb hop hcl hq =>
    refine noIo_wakeAll (s := deliver s h' s₀.calls c data) ?_ fun _ => rfl
    exact noIo_update (s := s) h rfl (h c)
  | placeRing hb hop hcl hq hroom => exact h
  | takeRing hb hop hpos hq => exact h
  | @takeRefill cur h' c rest op s hb hop hpos hq =>
    exact noIo_wakeAll (s := (s.storeHead h' s₀.calls).setChan h' _) h fun _ => rfl
  | @takeMeet cur h' c rest op s hb hop hzero hq =>
    exact noIo_wakeAll (s := s.emit _) h fun _ => rfl
  | @close cur h' op s hb hop hcl =>
    refine noIo_wakeAll (noIo_wakeAll (s := (s.setChan h' _).emit _) h fun _ => rfl) fun _ => rfl

theorem NoIo.leaks (h : NoIo s) (ha : a.isIo = false) : leaks s a = false := by
  cases a with
  | schedule e =>
    simp only [Libco.leaks]
    split
    · rfl
    · rename_i c rest hq
      have hio := h c
      cases hf : (s.co c).frame <;> simp [hf, Frame.isIo, Routine.errorExit] at hio ⊢
  | call op => cases op <;> simp [Act.isIo] at ha <;> rfl
  | _ => rfl

theorem NoIo.step (h : NoIo s) (hp : Placed run s) (ha : a.isIo = false)
    (hs : step s a = some s') : NoIo s' := by
  refine step_invariant hp (h.leaks ha) hs h ?_ ?_
  · exact fun os p p' hm _ hn => hm.noIo ha h hn
  · exact fun _ _ _ _ hn _ => hn

end Libco

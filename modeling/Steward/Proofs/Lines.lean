/-
Lines: a lock as a line of people, the first of whom has it.

Whoever holds a lock stands first in its line, and those who wait stand behind in the order in
which they came.  As long as a lock is never free while somebody waits (`Lock.Kept`), the line
says everything: to take a lock means to stand in an empty line, to wait means to join the end,
and to give up, by the holder or by one who waits, means to leave the line.

* **`Locks.line_acquire?`**, **`Locks.line_enqueue`**, **`Locks.line_leave`** — the lines after
  each of these, for the object in question and for the others;
* **`Locks.Serves`** — the line of every lock is made up of those who want it, each of whom is
  known by a ticket of its own; to come and to go keeps this so.
-/
import Mathlib.Data.List.Nodup
import Mathlib.Data.List.Perm.Basic
import Steward.Lock

namespace Steward

namespace Lock

/-- Who holds a lock, then who waits for it. -/
def line (l : Lock) : List Ticket :=
  l.holder.toList ++ l.waiting

/-- Whether nobody waits for a lock that is free. -/
def Kept (l : Lock) : Prop :=
  l.holder = none → l.waiting = []

variable {l l' : Lock} {t : Ticket}

/-- The first in the line has the lock. -/
theorem Kept.head?_line (h : l.Kept) : l.line.head? = l.holder := by
  obtain ⟨holder, waiting⟩ := l
  cases holder with
  | none =>
    obtain rfl : waiting = [] := h rfl
    rfl
  | some t => rfl

theorem acquire?_eq_some (h : l.acquire? t = some l') :
    l.holder = none ∧ l' = { l with holder := some t } := by
  obtain ⟨holder, waiting⟩ := l
  cases holder with
  | none =>
    cases h
    exact ⟨rfl, rfl⟩
  | some t => cases h

theorem acquire?_eq_none_iff : l.acquire? t = none ↔ ∃ t', l.holder = some t' := by
  obtain ⟨holder, waiting⟩ := l
  cases holder with
  | none => simp [acquire?]
  | some t' => simp [acquire?]

theorem Kept.acquire? (h : l.Kept) (hl : l.acquire? t = some l') :
    l'.Kept ∧ l.line = [] ∧ l'.line = [t] := by
  obtain ⟨hfree, rfl⟩ := acquire?_eq_some hl
  have hwaiting := h hfree
  refine ⟨fun hnone => ?_, ?_, ?_⟩
  · cases hnone
  · simp [line, hfree, hwaiting]
  · simp [line, hwaiting]

theorem line_enqueue (l : Lock) (t : Ticket) : (l.enqueue t).line = l.line ++ [t] :=
  (List.append_assoc ..).symm

/-- One may wait for a lock that is held. -/
theorem kept_enqueue {t' : Ticket} (h : l.holder = some t') : (l.enqueue t).Kept := by
  intro hnone
  rw [enqueue, h] at hnone
  cases hnone

/-- Giving up means to leave the line, whether one is the first or not. -/
theorem Kept.leave (h : l.Kept) (hline : l.line.Nodup) (t : Ticket) :
    (l.leave t).Kept ∧ (l.leave t).line = l.line.erase t := by
  obtain ⟨holder, waiting⟩ := l
  cases holder with
  | none =>
    obtain rfl : waiting = [] := h rfl
    exact ⟨fun _ => rfl, rfl⟩
  | some u =>
    by_cases hu : u = t
    · subst hu
      rw [Lock.leave, if_pos rfl]
      -- the lock goes to the first who waits
      cases waiting with
      | nil => exact ⟨fun _ => rfl, by simp [line]⟩
      | cons v waiting => exact ⟨fun hnone => (Option.some_ne_none v hnone).elim, by simp [line]⟩
    · have hwaiting : waiting.Nodup := (List.nodup_cons.mp hline).2
      rw [Lock.leave, if_neg fun hholder => hu (Option.some.inj hholder)]
      refine ⟨fun hnone => (Option.some_ne_none u hnone).elim, ?_⟩
      change u :: waiting.filter (· != t) = (u :: waiting).erase t
      rw [List.erase_cons_tail (by simpa using hu), hwaiting.erase_eq_filter]

/-- Whoever holds a lock keeps it when somebody else leaves. -/
theorem holder_leave {t' : Ticket} (h : l.holder = some t') (ht : t' ≠ t) :
    (l.leave t).holder = some t' := by
  rw [leave, if_neg fun hholder => ht (Option.some.inj (h.symm.trans hholder))]
  exact h

end Lock

namespace Locks

variable {ls ls' : Locks} {o : GroupId} {t : Ticket}

theorem lockOf_put (ls : Locks) (o : GroupId) (l : Lock) (o' : GroupId) :
    (ls.put o l).lockOf o' = if o' = o then l else ls.lockOf o' := by
  have hothers : (ls.entries.filter (·.1 != o)).find? (·.1 == o') =
      if o' = o then none else ls.entries.find? (·.1 == o') := by
    rw [List.find?_filter]
    split
    · rename_i heq
      subst heq
      rw [List.find?_eq_none]
      intro x _ hx
      simp at hx
    · rename_i hne
      congr 1
      funext x
      by_cases hx : x.1 = o'
      · simp [hx, hne]
      · simp [hx]
  rw [lockOf, put]
  by_cases hl : l.isFree = true
  · rw [if_pos hl, hothers]
    split
    · -- an object that is not listed has a free lock
      obtain ⟨holder, waiting⟩ := l
      simp only [Lock.isFree, Bool.and_eq_true, Option.isNone_iff_eq_none,
        List.isEmpty_iff] at hl
      obtain ⟨rfl, rfl⟩ := hl
      rfl
    · rfl
  · rw [if_neg hl]
    by_cases ho : o' = o
    · subst ho
      simp
    · rw [List.find?_cons_of_neg (by simpa using Ne.symm ho), hothers, if_neg ho, if_neg ho]
      rfl

/-- The line of the lock of an object. -/
def line (ls : Locks) (o : GroupId) : List Ticket :=
  (ls.lockOf o).line

/-- Whether nobody waits for a lock that is free. -/
def Kept (ls : Locks) : Prop :=
  ∀ o, (ls.lockOf o).Kept

theorem line_put (ls : Locks) (o : GroupId) (l : Lock) (o' : GroupId) :
    (ls.put o l).line o' = if o' = o then l.line else ls.line o' := by
  rw [line, lockOf_put]
  split
  · rfl
  · rfl

theorem Kept.put (h : ls.Kept) {l : Lock} (hl : l.Kept) (o : GroupId) : (ls.put o l).Kept := by
  intro o'
  rw [lockOf_put]
  split
  · exact hl
  · exact h o'

/-- The first in the line of an object has its lock. -/
theorem Kept.holds_iff (h : ls.Kept) : ls.holds o t = true ↔ (ls.line o).head? = some t := by
  rw [holds, line, (h o).head?_line, beq_iff_eq]

theorem acquire?_eq_none_iff :
    ls.acquire? o t = none ↔ ∃ t', ls.holds o t' = true := by
  rw [acquire?, Option.map_eq_none_iff, Lock.acquire?_eq_none_iff]
  simp [holds]

theorem Kept.line_acquire? (h : ls.Kept) (hls : ls.acquire? o t = some ls') :
    ls'.Kept ∧ ls.line o = [] ∧ ∀ o', ls'.line o' = if o' = o then [t] else ls.line o' := by
  obtain ⟨l, hl, rfl⟩ := Option.map_eq_some_iff.mp hls
  obtain ⟨hkept, hempty, hline⟩ := (h o).acquire? hl
  refine ⟨h.put hkept o, hempty, fun o' => ?_⟩
  rw [line_put, hline]

theorem line_enqueue (ls : Locks) (o : GroupId) (t : Ticket) (o' : GroupId) :
    (ls.enqueue o t).line o' = if o' = o then ls.line o ++ [t] else ls.line o' := by
  rw [enqueue, line_put, Lock.line_enqueue]
  rfl

theorem Kept.line_leave (h : ls.Kept) (hline : (ls.line o).Nodup) (t : Ticket) :
    (ls.leave o t).Kept ∧
      ∀ o', (ls.leave o t).line o' = if o' = o then (ls.line o).erase t else ls.line o' := by
  obtain ⟨hkept, hleave⟩ := (h o).leave hline t
  refine ⟨h.put hkept o, fun o' => ?_⟩
  rw [leave, line_put, hleave]
  rfl

theorem holds_leave {o' : GroupId} {t' : Ticket} (h : ls.holds o' t' = true) (ht : t' ≠ t) :
    (ls.leave o t).holds o' t' = true := by
  rw [holds, beq_iff_eq] at h ⊢
  rw [leave, lockOf_put]
  split
  · rename_i heq
    subst heq
    exact Lock.holder_leave h ht
  · exact h

/-! ### Those who want a lock -/

/-- Whether the line of every lock is made up of those who want it: pairs of an object and a
ticket, no two of them with the same ticket. -/
structure Serves (ls : Locks) (wanted : List (GroupId × Ticket)) : Prop where
  kept : ls.Kept
  tickets : (wanted.map Prod.snd).Nodup
  line : ∀ o, (ls.line o).Perm ((wanted.filter (·.1 = o)).map Prod.snd)

variable {wanted wanted' : List (GroupId × Ticket)}

theorem Serves.perm (h : ls.Serves wanted) (hp : wanted.Perm wanted') : ls.Serves wanted' where
  kept := h.kept
  tickets := (hp.map Prod.snd).nodup_iff.mp h.tickets
  line o := (h.line o).trans ((hp.filter _).map Prod.snd)

theorem Serves.mem_line (h : ls.Serves wanted) : t ∈ ls.line o ↔ (o, t) ∈ wanted := by
  rw [(h.line o).mem_iff]
  simp

theorem Serves.nodup (h : ls.Serves wanted) (o : GroupId) : (ls.line o).Nodup :=
  (h.line o).nodup_iff.mpr (h.tickets.sublist (List.filter_sublist.map Prod.snd))

/-- A lock that is wanted is held by one who wants it. -/
theorem Serves.exists_holds (h : ls.Serves wanted) (hw : (o, t) ∈ wanted) :
    ∃ t', (o, t') ∈ wanted ∧ ls.holds o t' = true := by
  have ht : t ∈ ls.line o := h.mem_line.mpr hw
  cases hline : ls.line o with
  | nil =>
    rw [hline] at ht
    cases ht
  | cons t' rest =>
    refine ⟨t', h.mem_line.mp ?_, h.kept.holds_iff.mpr ?_⟩
    · rw [hline]
      exact List.mem_cons_self
    · rw [hline]
      rfl

theorem Serves.mem_of_holds (h : ls.Serves wanted) (ht : ls.holds o t = true) :
    (o, t) ∈ wanted :=
  h.mem_line.mp (List.mem_of_mem_head? (h.kept.holds_iff.mp ht))

/-- The lines of the others stay, and the line of the object has one more. -/
theorem Serves.join (h : ls.Serves wanted) (ht : t ∉ wanted.map Prod.snd) (hkept : ls'.Kept)
    (hline : ∀ o', ls'.line o' = if o' = o then ls.line o ++ [t] else ls.line o') :
    ls'.Serves ((o, t) :: wanted) where
  kept := hkept
  tickets := List.nodup_cons.mpr ⟨ht, h.tickets⟩
  line o' := by
    rw [hline]
    by_cases ho : o' = o
    · subst ho
      rw [if_pos rfl, List.filter_cons_of_pos (by simp)]
      exact (List.perm_append_singleton t _).trans ((h.line o').cons t)
    · rw [if_neg ho, List.filter_cons_of_neg (by simpa using Ne.symm ho)]
      exact h.line o'

theorem Serves.acquire? (h : ls.Serves wanted) (ht : t ∉ wanted.map Prod.snd)
    (hls : ls.acquire? o t = some ls') : ls'.Serves ((o, t) :: wanted) := by
  obtain ⟨hkept, hempty, hline⟩ := h.kept.line_acquire? hls
  refine h.join ht hkept fun o' => ?_
  rw [hline, hempty]
  rfl

theorem Serves.enqueue (h : ls.Serves wanted) (ht : t ∉ wanted.map Prod.snd) {t' : Ticket}
    (htaken : ls.acquire? o t' = none) : (ls.enqueue o t).Serves ((o, t) :: wanted) := by
  obtain ⟨u, hu⟩ := acquire?_eq_none_iff.mp htaken
  have hholder : (ls.lockOf o).holder = some u := beq_iff_eq.mp hu
  exact h.join ht (h.kept.put (Lock.kept_enqueue hholder) o) (ls.line_enqueue o t)

/-- One who wanted a lock, and had it or not, leaves. -/
theorem Serves.leave (h : ls.Serves ((o, t) :: wanted)) : (ls.leave o t).Serves wanted := by
  obtain ⟨hkept, hline⟩ := h.kept.line_leave (h.nodup o) t
  refine ⟨hkept, (List.nodup_cons.mp h.tickets).2, fun o' => ?_⟩
  rw [hline]
  by_cases ho : o' = o
  · subst ho
    have hperm := h.line o'
    rw [List.filter_cons_of_pos (by simp), List.map_cons] at hperm
    rw [if_pos rfl]
    exact (hperm.erase t).trans (by rw [List.erase_cons_head])
  · have hperm := h.line o'
    rw [List.filter_cons_of_neg (by simpa using Ne.symm ho)] at hperm
    rw [if_neg ho]
    exact hperm

/-- Many leave, one after the other. -/
theorem Serves.leaveAll {leavers : List (GroupId × Ticket)} (h : ls.Serves (leavers ++ wanted)) :
    (leavers.foldl (fun ls q => ls.leave q.1 q.2) ls).Serves wanted := by
  induction leavers generalizing ls with
  | nil => exact h
  | cons q leavers ih => exact ih h.leave

/-- Whoever has a lock keeps it when others leave. -/
theorem holds_leaveAll {leavers : List (GroupId × Ticket)}
    (ht : t ∉ leavers.map Prod.snd) (h : ls.holds o t = true) :
    (leavers.foldl (fun ls q => ls.leave q.1 q.2) ls).holds o t = true := by
  induction leavers generalizing ls with
  | nil => exact h
  | cons q leavers ih =>
    rw [List.map_cons, List.mem_cons, not_or] at ht
    exact ih ht.2 (holds_leave h ht.1)

end Locks

end Steward

/-
Exclusion: calls on one object take turns.

Where instances are exclusive, a top-level call on an object has to have the object's lock.  The
host may hold the lock as well.  Both are in line for it, the host under the name of a lock and
a call under the name it waits by (`Seeker`).

* **`Reachable.queued`** — in every session there can be, the lines of the locks are made up of
  those who want them, no two under one ticket;
* **`Queued.one`**, **`Queued.held`** — so nobody but the first in the line of an object has its
  lock, and a lock that somebody wants is not free;
* **`invocations_exclusive`** — this together with what the steps do: a call that does not have
  the lock changes nothing, one that has it runs and gives it up whatever comes of it, one that
  is dropped leaves the line, and a call that needs no lock never waits.

Design notes: a call runs to its end in one step, so the only time at which it can be dropped
while it has the lock is between the step in which the lock came to it and its turn to run.
-/
import Steward.Proofs.ExactOwnership
import Steward.Proofs.Lines

namespace Steward

/-! ### Who is in line -/

namespace Session

variable {s s' : Session} {ls : Locks} {o : GroupId} {t : Ticket}

/-- Those who want a lock, each with the object and its ticket. -/
def wanted (s : Session) : List (GroupId × Ticket) :=
  s.guards.values.map (fun g => (g.object, g.ticket)) ++
    s.pendings.values.map fun p => (p.object, p.ticket)

/-- What is known of the locks of a session at all times. -/
structure Queued (s : Session) : Prop where
  guards : s.guards.Keyed
  pendings : s.pendings.Keyed
  serves : s.locks.Serves s.wanted
  fresh : ∀ q ∈ s.wanted, q.2 < s.fresh
  /-- The host does not wait for a lock. -/
  holds : ∀ g ∈ s.guards.values, s.locks.holds g.object g.ticket = true

/-- Nothing else of a session matters. -/
theorem Queued.congr (h : s.Queued) (hg : s'.guards = s.guards) (hp : s'.pendings = s.pendings)
    (hl : s'.locks = s.locks) (hf : s.fresh ≤ s'.fresh) : s'.Queued where
  guards := hg ▸ h.guards
  pendings := hp ▸ h.pendings
  serves := by
    rw [hl, wanted, hg, hp]
    exact h.serves
  fresh q hq := by
    rw [wanted, hg, hp] at hq
    exact Nat.lt_of_lt_of_le (h.fresh q hq) hf
  holds g hmem := by
    rw [hl]
    exact h.holds g (hg ▸ hmem)

theorem Queued.not_mem (h : s.Queued) : s.fresh ∉ s.wanted.map Prod.snd := by
  intro hmem
  obtain ⟨q, hq, heq⟩ := List.mem_map.mp hmem
  exact absurd (h.fresh q hq) (heq ▸ Nat.lt_irrefl _)

/-- The host under a name, and the others who want a lock. -/
theorem wanted_guard (h : s.guards.Keyed) (name : String) :
    s.wanted.Perm ((s.guard? name).toList ++ wanted { s with guards := s.guards.erase name }) := by
  have hperm := (h.values_perm name).map fun g => (g.object, g.ticket)
  rw [List.map_append, ← Option.toList_map] at hperm
  rw [wanted, wanted, guard?, ← List.append_assoc]
  exact hperm.append_right _

/-- The call under a name, and the others who want a lock. -/
theorem wanted_place (h : s.pendings.Keyed) (name : String) :
    s.wanted.Perm
      ((s.place? name).toList ++ wanted { s with pendings := s.pendings.erase name }) := by
  have hperm := (h.values_perm name).map fun p => (p.object, p.ticket)
  rw [List.map_append, ← Option.toList_map] at hperm
  rw [wanted, wanted, place?]
  refine (hperm.append_left _).trans ?_
  rw [← List.append_assoc, ← List.append_assoc]
  exact List.perm_append_comm.append_right _

theorem mem_wanted_of_guard {g : Guard} (h : g ∈ s.guards.values) :
    (g.object, g.ticket) ∈ s.wanted :=
  List.mem_append_left _ (List.mem_map_of_mem h)

theorem leaving_eq (ls : Locks) (q : Option (GroupId × Ticket)) :
    leaving ls q = q.toList.foldl (fun ls q => ls.leave q.1 q.2) ls := by
  cases q with
  | none => rfl
  | some q => rfl

/-- Some leave the lines; those who stay are those who want a lock from then on. -/
theorem queued_of_leaveAll (leavers : List (GroupId × Ticket)) (guards : s.guards.Keyed)
    (pendings : s.pendings.Keyed)
    (locks : s.locks = leavers.foldl (fun ls q => ls.leave q.1 q.2) ls)
    (serves : ls.Serves (leavers ++ s.wanted)) (fresh : ∀ q ∈ s.wanted, q.2 < s.fresh)
    (holds : ∀ g ∈ s.guards.values, ls.holds g.object g.ticket = true) : s.Queued where
  guards := guards
  pendings := pendings
  serves := locks ▸ serves.leaveAll
  fresh := fresh
  holds g hg := by
    have hdisjoint := List.disjoint_of_nodup_append (List.map_append ▸ serves.tickets)
    rw [locks]
    refine Locks.holds_leaveAll (fun hleaver => hdisjoint hleaver ?_) (holds g hg)
    exact List.mem_map_of_mem (f := Prod.snd) (mem_wanted_of_guard hg)

/-! ### Effects -/

/-- The host or a call under a name gives up what it has or waits for. -/
theorem Queued.without (h : s.Queued) (name : String) (what : Droppable) :
    (s.without name what).Queued := by
  cases what with
  | object | group | view | builder | library | thread =>
    exact h.congr rfl rfl rfl (Nat.le_refl _)
  | lock =>
    have hperm := wanted_guard h.guards name
    refine queued_of_leaveAll _ (h.guards.erase name) h.pendings (leaving_eq _ _)
      (h.serves.perm hperm) ?_ fun g hg => h.holds g (Table.mem_values_of_erase hg)
    exact fun q hq => h.fresh q (hperm.mem_iff.mpr (List.mem_append_right _ hq))
  | pending =>
    have hperm := wanted_place h.pendings name
    refine queued_of_leaveAll _ h.guards (h.pendings.erase name) (leaving_eq _ _)
      (h.serves.perm hperm) ?_ h.holds
    exact fun q hq => h.fresh q (hperm.mem_iff.mpr (List.mem_append_right _ hq))

/-- What the host has locked stays so when another lock is taken. -/
theorem Queued.holds_acquire? (h : s.Queued) (free : s.locks.acquire? o s.fresh = some ls)
    {g : Guard} (hg : g ∈ s.guards.values) : ls.holds g.object g.ticket = true := by
  obtain ⟨hkept, hempty, hline⟩ := h.serves.kept.line_acquire? free
  have hholds := h.serves.kept.holds_iff.mp (h.holds g hg)
  refine hkept.holds_iff.mpr ?_
  rw [hline, if_neg, hholds]
  -- the lock that is taken was free
  rintro rfl
  rw [hempty] at hholds
  cases hholds

theorem Queued.lock (h : s.Queued) (free : s.locks.acquire? o s.fresh = some ls)
    (handle : String) :
    Queued { s with
      locks := leaving ls (s.guard? handle)
      guards := s.guards.insert handle ⟨o, s.fresh⟩
      fresh := s.fresh + 1 } := by
  have hperm : ((o, s.fresh) :: s.wanted).Perm ((s.guard? handle).toList ++
      wanted { s with guards := s.guards.insert handle ⟨o, s.fresh⟩ }) := by
    refine ((wanted_guard h.guards handle).cons _).trans (List.perm_middle.symm.trans ?_)
    refine List.Perm.append_left _ ?_
    rw [wanted, wanted, Table.values_insert, List.map_append, List.append_assoc]
    exact List.perm_middle.symm
  refine queued_of_leaveAll _ (h.guards.insert _ _) h.pendings (leaving_eq _ _)
    ((h.serves.acquire? h.not_mem free).perm hperm) ?_ ?_
  · intro q hq
    rcases List.mem_cons.mp (hperm.mem_iff.mpr (List.mem_append_right _ hq)) with rfl | hq
    · exact Nat.lt_succ_self _
    · exact Nat.lt_succ_of_lt (h.fresh q hq)
  · intro g hg
    rcases Table.mem_values_of_insert hg with rfl | hg
    · obtain ⟨hkept, -, hline⟩ := h.serves.kept.line_acquire? free
      refine hkept.holds_iff.mpr ?_
      rw [hline, if_pos rfl]
      rfl
    · exact h.holds_acquire? free hg

theorem Queued.wait (h : s.Queued) (taken : s.locks.acquire? o s.fresh = none) (c : Call)
    (name : String) :
    Queued { s with
      locks := leaving (s.locks.enqueue o s.fresh) (s.place? name)
      pendings := s.pendings.insert name ⟨c, o, s.fresh⟩
      fresh := s.fresh + 1 } := by
  have hperm : ((o, s.fresh) :: s.wanted).Perm ((s.place? name).toList ++
      wanted { s with pendings := s.pendings.insert name ⟨c, o, s.fresh⟩ }) := by
    refine ((wanted_place h.pendings name).cons _).trans (List.perm_middle.symm.trans ?_)
    refine List.Perm.append_left _ ?_
    rw [wanted, wanted, Table.values_insert, List.map_append, ← List.append_assoc]
    exact (List.perm_append_singleton _ _).symm
  have hserves := h.serves.enqueue h.not_mem taken
  refine queued_of_leaveAll _ h.guards (h.pendings.insert _ _) (leaving_eq _ _)
    (hserves.perm hperm) ?_ ?_
  · intro q hq
    rcases List.mem_cons.mp (hperm.mem_iff.mpr (List.mem_append_right _ hq)) with rfl | hq
    · exact Nat.lt_succ_self _
    · exact Nat.lt_succ_of_lt (h.fresh q hq)
  · intro g hg
    have hholds := h.serves.kept.holds_iff.mp (h.holds g hg)
    refine hserves.kept.holds_iff.mpr ?_
    rw [Locks.line_enqueue]
    split
    · rename_i heq
      rw [← heq, List.head?_append, hholds]
      rfl
    · exact hholds

/-- A call that need not wait takes the lock and gives it up in one step. -/
theorem Queued.pass (h : s.Queued) (free : s.locks.acquire? o s.fresh = some ls) :
    Queued { s with locks := ls.leave o s.fresh, fresh := s.fresh + 1 } :=
  queued_of_leaveAll [(o, s.fresh)] h.guards h.pendings rfl
    (h.serves.acquire? h.not_mem free) (fun q hq => Nat.lt_succ_of_lt (h.fresh q hq))
    fun _ hg => h.holds_acquire? free hg

theorem Queued.shut (h : s.Queued) : s.shut.Queued := by
  refine queued_of_leaveAll (s.pendings.values.map fun p => (p.object, p.ticket))
    h.guards Table.keyed_empty ?_ (h.serves.perm ?_) ?_ h.holds
  · rw [List.foldl_map]
    rfl
  · refine List.perm_append_comm.trans (List.Perm.append_left _ ?_)
    rw [wanted]
    exact .of_eq (List.append_nil _).symm
  · intro q hq
    refine h.fresh q ?_
    rcases List.mem_append.mp hq with hq | hq
    · exact List.mem_append_left _ hq
    · exact absurd hq List.not_mem_nil

/-- Who can be in line for a lock: the host, by the name of a lock of its own, or a call. -/
inductive Seeker where
  | host (lock : String)
  | call (pending : String)

/-- The step by which one in line is dropped. -/
def Seeker.drop : Seeker → Step
  | host lock => .memory (.drop .lock lock)
  | call pending => .memory (.drop .pending pending)

/-- The lock that someone wants, with the ticket. -/
def wants? (s : Session) : Seeker → Option (GroupId × Ticket)
  | .host lock => s.guard? lock
  | .call pending => s.place? pending

/-- Whether someone has the lock of an object. -/
def HasLock (s : Session) (x : Seeker) (o : GroupId) : Prop :=
  ∃ t, s.wants? x = some (o, t) ∧ s.locks.holds o t = true

/-- Those who want a lock, with their tickets. -/
def seekers (s : Session) : List (Seeker × Ticket) :=
  s.guards.entries.map (fun e => (.host e.1, e.2.ticket)) ++
    s.pendings.entries.map fun e => (.call e.1, e.2.ticket)

theorem tickets_seekers (s : Session) : s.seekers.map Prod.snd = s.wanted.map Prod.snd := by
  simp [seekers, wanted, Table.values, Function.comp_def]

theorem Queued.mem_seekers (h : s.Queued) {x : Seeker} (hx : s.wants? x = some (o, t)) :
    (x, t) ∈ s.seekers := by
  cases x with
  | host lock =>
    obtain ⟨g, hg, heq⟩ := Option.map_eq_some_iff.mp hx
    cases heq
    exact List.mem_append_left _ (List.mem_map_of_mem (f := fun e => (Seeker.host e.1, e.2.ticket))
      (h.guards.find?_eq_some_iff.mp hg))
  | call pending =>
    obtain ⟨p, hp, heq⟩ := Option.map_eq_some_iff.mp hx
    cases heq
    exact List.mem_append_right _ (List.mem_map_of_mem (f := fun e => (Seeker.call e.1, e.2.ticket))
      (h.pendings.find?_eq_some_iff.mp hp))

theorem Queued.exists_seeker (h : s.Queued) (hw : (o, t) ∈ s.wanted) :
    ∃ x, s.wants? x = some (o, t) := by
  rcases List.mem_append.mp hw with hw | hw
  · obtain ⟨g, hg, heq⟩ := List.mem_map.mp hw
    obtain ⟨name, hname⟩ := h.guards.mem_values_iff.mp hg
    exact ⟨.host name, Option.map_eq_some_iff.mpr ⟨g, hname, heq⟩⟩
  · obtain ⟨p, hp, heq⟩ := List.mem_map.mp hw
    obtain ⟨name, hname⟩ := h.pendings.mem_values_iff.mp hp
    exact ⟨.call name, Option.map_eq_some_iff.mpr ⟨p, hname, heq⟩⟩

theorem mem_wanted {x : Seeker} (hx : s.wants? x = some (o, t)) :
    (o, t) ∈ s.wanted := by
  cases x with
  | host lock =>
    obtain ⟨g, hg, heq⟩ := Option.map_eq_some_iff.mp hx
    exact List.mem_append_left _ (heq ▸ List.mem_map_of_mem (Table.mem_values_of_find? hg))
  | call pending =>
    obtain ⟨p, hp, heq⟩ := Option.map_eq_some_iff.mp hx
    exact List.mem_append_right _ (heq ▸ List.mem_map_of_mem (Table.mem_values_of_find? hp))

/-- Somebody has the lock of an object if and only if it is taken. -/
theorem Queued.exists_hasLock_iff (h : s.Queued) :
    (∃ x, s.HasLock x o) ↔ ∃ t, s.locks.holds o t = true := by
  constructor
  · rintro ⟨x, t, -, ht⟩
    exact ⟨t, ht⟩
  · rintro ⟨t, ht⟩
    obtain ⟨x, hx⟩ := h.exists_seeker (h.serves.mem_of_holds ht)
    exact ⟨x, t, hx, ht⟩

/-- **No two have the lock of an object.** -/
theorem Queued.one (h : s.Queued) {x y : Seeker} (hx : s.HasLock x o) (hy : s.HasLock y o) :
    x = y := by
  obtain ⟨t, hxt, ht⟩ := hx
  obtain ⟨t', hyt, ht'⟩ := hy
  obtain rfl : t = t' := by
    have heq := (h.serves.kept.holds_iff.mp ht).symm.trans (h.serves.kept.holds_iff.mp ht')
    exact Option.some.inj heq
  have hnodup : (s.seekers.map Prod.snd).Nodup := s.tickets_seekers ▸ h.serves.tickets
  have heq := List.inj_on_of_nodup_map hnodup (h.mem_seekers hxt) (h.mem_seekers hyt) rfl
  exact congrArg Prod.fst heq

/-- **A lock that somebody wants is held by one who wants it.** -/
theorem Queued.held (h : s.Queued) {x : Seeker} (hx : s.wants? x = some (o, t)) :
    ∃ y, s.HasLock y o := by
  obtain ⟨t', -, ht'⟩ := h.serves.exists_holds (mem_wanted hx)
  exact h.exists_hasLock_iff.mpr ⟨t', ht'⟩

end Session

/-! ### What the steps come to -/

namespace Host

open Session

variable {α β : Type} {s s' : Session} {o : GroupId} {c : Call}

/-- What an action comes to, and the session it leaves behind. -/
def Ends (s : Session) (m : Host α) (Q : Except Fault α → Session → Prop) : Prop :=
  Q (m.run.run s).1 (m.run.run s).2

end Host

namespace Session

variable {s : Session}

/-- A lock that nobody has can be taken. -/
theorem Queued.acquire? (h : s.Queued) {o : GroupId} (free : ¬ ∃ x, s.HasLock x o) (t : Ticket) :
    ∃ ls, s.locks.acquire? o t = some ls := by
  cases hacquire : s.locks.acquire? o t with
  | none => exact absurd (h.exists_hasLock_iff.mpr (Locks.acquire?_eq_none_iff.mp hacquire)) free
  | some ls => exact ⟨ls, rfl⟩

theorem Queued.taken (h : s.Queued) {o : GroupId} (hx : ∃ x, s.HasLock x o) (t : Ticket) :
    s.locks.acquire? o t = none :=
  Locks.acquire?_eq_none_iff.mpr (h.exists_hasLock_iff.mp hx)

end Session

end Steward

/-
Stable names: what a name stands for does not change during a call.

While a thread is at work, other scripts share what it sees: its statics, the fields of its
invoker, the group it is lent.  None of them gets a name.  The one command that adds a slot adds
it to the variables of its own thread, and only if the thread sees no such name anywhere.

* **`Thread.Life`** — what happens from the time a thread is entered: commands are executed in
  it, with all that these call, and in between other things happen that leave alone the keys of
  the groups that it sees;
* **`Thread.Extends s s'`** — the thread sees in `s'` what it saw in `s`, and perhaps more
  variables of its own;
* **`Thread.Lives.stays`** — every step in the life of a thread is of this kind, and keeps the
  names of its variables apart from all others;
* **`Passes.life_entered`**, **`livesOn_steps`** — a run in which a thread is alive, and steps of
  a host that execute commands in a thread, are part of its life;
* **`names_stable`** — so a name that was found is found again, at the same place and with the
  same key, and no name comes to occur twice.

Design notes: the frames below a thread, which wait until it is left, stay as they are during its
life (`Next.above`).  So one statement covers a thread that a host has entered, under which there
is nothing, and a thread in the middle of a run.
-/
import Steward.Proofs.GivenNumbers

namespace Steward

/-- Whether a name occurs in a live group. -/
def Store.Names (s : Store) (id : GroupId) (name : String) : Prop :=
  ∃ g, s.group? id = some g ∧ g.hasName name = true

/-! ### Declarations -/

namespace View

variable {s s' : Store} {v : View}

/-- A search that finds nothing has read every group. -/
theorem firstWith_eq_none {has : Group → Bool} {ids : List GroupId}
    (h : firstWith s has ids = .ok none) :
    ∀ id ∈ ids, ∃ g, s.group? id = some g ∧ has g = false := by
  induction ids with
  | nil => exact fun id hid => absurd hid List.not_mem_nil
  | cons first ids ih =>
    rw [firstWith] at h
    split at h
    · cases h
    · rename_i g hread
      split at h
      · cases h
      · rename_i hno
        intro id hid
        rcases List.mem_cons.mp hid with rfl | hid
        · exact ⟨g, Store.read_eq_ok_iff.mp hread, Bool.eq_false_iff.mpr hno⟩
        · exact ih h id hid

/-- A slot is added only if the name occurs in none of the groups, which are all live. -/
theorem add_eq_true {key : Key} {value : Option ObjectRef}
    (h : v.add s key value = .ok (true, s')) :
    (∀ id ∈ v.links, ¬ s.Names id key.name) ∧
      ∃ target, v.target = some target ∧ s.AddsTo target ⟨key, value⟩ s' := by
  rw [add] at h
  split at h
  · cases h
  · rename_i target htarget
    obtain ⟨owner, howner, h⟩ := bind_eq_ok_iff.mp h
    cases owner with
    | some id => cases h
    | none =>
      refine ⟨fun id hid => ?_, target, htarget, ?_⟩
      · rintro ⟨g, hg, hname⟩
        obtain ⟨g', hg', hno⟩ := firstWith_eq_none howner id hid
        rw [hg] at hg'
        cases hg'
        rw [hname] at hno
        cases hno
      · obtain ⟨g, g', hg, hgroup, rfl⟩ := Store.add_cases h
        rcases Group.add_cases hgroup with ⟨hadded, -⟩ | ⟨-, -, -, rfl⟩
        · cases hadded
        · exact Store.addsTo_write hg ⟨key, value⟩

end View

namespace Thread

/-- Whether a thread sees in `s'` what it saw in `s`: groups that are still live have the keys
they had, and only its variables may have got more, at the end. -/
def Extends (t : Thread) (s s' : Store) : Prop :=
  ∀ id ∈ t.view.links, ∀ g', s'.group? id = some g' →
    ∃ g, s.group? id = some g ∧ g.keys <+: g'.keys ∧ (id ≠ t.locals → g'.keys = g.keys)

variable {t : Thread} {s s' s'' : Store}

theorem Extends.refl (t : Thread) (s : Store) : t.Extends s s :=
  fun _ _ g hg => ⟨g, hg, List.prefix_rfl, fun _ => rfl⟩

theorem Extends.trans (h : t.Extends s s') (h' : t.Extends s' s'') : t.Extends s s'' := by
  intro id hid g'' hg''
  obtain ⟨g', hg', hprefix', hkeys'⟩ := h' id hid g'' hg''
  obtain ⟨g, hg, hprefix, hkeys⟩ := h id hid g' hg'
  exact ⟨g, hg, hprefix.trans hprefix', fun hne => (hkeys' hne).trans (hkeys hne)⟩

theorem Extends.allLive (h : t.Extends s s') (live : s'.AllLive t.view.links) :
    s.AllLive t.view.links := by
  intro id hid
  obtain ⟨g', hg'⟩ := Store.isLive_iff.mp (live id hid)
  obtain ⟨g, hg, -⟩ := h id hid g' hg'
  exact Store.isLive_iff.mpr ⟨g, hg⟩

end Thread

theorem Group.hasName_congr {g g' : Group} (h : g'.keys = g.keys) (name : String) :
    g'.hasName name = g.hasName name := by
  rw [Bool.eq_iff_iff, Group.hasName_iff, Group.hasName_iff, h]

/-- A name outside of the variables of a thread was there before. -/
theorem Thread.Extends.names {t : Thread} {s s' : Store} (h : t.Extends s s') {id : GroupId}
    (hid : id ∈ t.view.links) (hne : id ≠ t.locals) {name : String} (hname : s'.Names id name) :
    s.Names id name := by
  obtain ⟨g', hg', hname⟩ := hname
  obtain ⟨g, hg, -, hkeys⟩ := h id hid g' hg'
  exact ⟨g, hg, Group.hasName_congr (hkeys hne) name ▸ hname⟩

/-! ### The life of a thread -/

namespace Thread

/-- One step in the life of a thread, during which the frames `below` stay where they are.  A
moment is here what is going on above of them. -/
inductive Lives (t : Thread) (below : List Frame) : Moment → Moment → Prop where
  /-- A step of commands of the thread, or of something that they call. -/
  | next {env : Env} {task task' : Task} {above above' : List Frame} {s s' : Store}
      (h : Moment.Next env ⟨task, above ++ below, s⟩ ⟨task', above' ++ below, s'⟩) :
      Lives t below ⟨task, above, s⟩ ⟨task', above', s'⟩
  /-- When nothing is left to do, commands are begun. -/
  | commands {r : Except Error Context} {held : Held} {completed : Nat} {ctx : Context}
      {cs : List Command} {s : Store} :
      Lives t below ⟨.done r, [], s⟩ ⟨.commands held t completed ctx cs, [], s⟩
  | command {r : Except Error Context} {held : Held} {ctx : Context} {c : Command} {s : Store} :
      Lives t below ⟨.done r, [], s⟩ ⟨.command held t ctx c, [], s⟩
  /-- Or something else happens to the store, without a slot more in what the thread sees. -/
  | between {r : Except Error Context} {s s' : Store} (h : s.Changes s')
      (keys : ∀ id ∈ t.view.links, ∀ g g', s.group? id = some g → s'.group? id = some g' →
        g'.keys = g.keys) :
      Lives t below ⟨.done r, [], s⟩ ⟨.done r, [], s'⟩

/-- What happens in the life of a thread. -/
def Life (t : Thread) (below : List Frame) : Moment → Moment → Prop :=
  Relation.ReflTransGen (t.Lives below)

/-- What holds at every moment in the life of a thread that was entered when the store was
`entry`. -/
structure Stays (t : Thread) (entry : Store) (m : Moment) : Prop where
  orderly : m.store.Orderly
  next_le : entry.next ≤ m.store.next
  /-- Whoever executes commands is the thread itself, or was entered later. -/
  runners : ∀ u ∈ m.runners, u = t ∨ entry.next ≤ u.locals
  /-- Its variables have names that occur in no other group it sees. -/
  apart : ∀ name, m.store.Names t.locals name → ∀ id ∈ t.view.links, id ≠ t.locals →
    ¬ m.store.Names id name

section Stays

variable {t : Thread} {s s' entry : Store} {m m' : Moment} {below : List Frame}

/-- A store in which no group that the thread sees has got a key. -/
theorem unchanged_of_ages {own : GroupId → Prop} (h : s.Ages own s')
    (hlinks : ∀ id ∈ t.view.links, id < s.next) (hown : ∀ id ∈ t.view.links, ¬ own id) :
    ∀ id ∈ t.view.links, ∀ g', s'.group? id = some g' →
      ∃ g, s.group? id = some g ∧ g'.keys = g.keys := by
  intro id hid g' hg'
  obtain ⟨g, hg, -, hkeys⟩ := h.old (hlinks id hid) hg'
  exact ⟨g, hg, hkeys (hown id hid)⟩

/-- If no group that the thread sees has got a key, it sees what it saw, and names are as far apart
as they were. -/
theorem extends_of_unchanged (h : ∀ id ∈ t.view.links, ∀ g', s'.group? id = some g' →
      ∃ g, s.group? id = some g ∧ g'.keys = g.keys) :
    t.Extends s s' ∧ ∀ id ∈ t.view.links, ∀ name, s'.Names id name → s.Names id name := by
  refine ⟨fun id hid g' hg' => ?_, fun id hid name hname => ?_⟩
  · obtain ⟨g, hg, hkeys⟩ := h id hid g' hg'
    exact ⟨g, hg, hkeys ▸ List.prefix_rfl, fun _ => hkeys⟩
  · obtain ⟨g', hg', hname⟩ := hname
    obtain ⟨g, hg, hkeys⟩ := h id hid g' hg'
    exact ⟨g, hg, Group.hasName_congr hkeys name ▸ hname⟩

theorem locals_mem_links (t : Thread) : t.locals ∈ t.view.links :=
  List.mem_append_right _ List.mem_cons_self

/-- A variable that the thread declares is one more, with a name that it did not see. -/
theorem extends_of_declare {key : Key} (hadd : t.view.add s key none = .ok (true, s')) :
    t.Extends s s' ∧
      (∀ id ∈ t.view.links, id ≠ t.locals → ¬ s'.Names id key.name) ∧
      ∀ name, s'.Names t.locals name → name = key.name ∨ s.Names t.locals name := by
  obtain ⟨hnew, target, htarget, hadds⟩ := View.add_eq_true hadd
  obtain rfl : t.locals = target := Option.some.inj htarget
  obtain ⟨g, hg, hg'⟩ := hadds.group
  have hextends : t.Extends s s' := by
    intro id hid g₁ hg₁
    by_cases hlocals : id = t.locals
    · subst hlocals
      rw [hg'] at hg₁
      cases hg₁
      refine ⟨g, hg, ?_, fun hne => absurd rfl hne⟩
      rw [Group.keys, Group.keys, List.map_append]
      exact List.prefix_append _ _
    · exact ⟨g₁, hadds.other id hlocals ▸ hg₁, List.prefix_rfl, fun _ => rfl⟩
  refine ⟨hextends, fun id hid hne hname => hnew id hid (hextends.names hid hne hname), ?_⟩
  rintro name ⟨g₁, hg₁, hname⟩
  rw [hg'] at hg₁
  cases hg₁
  rw [Group.hasName_iff, Group.keys, List.map_append, List.mem_map] at hname
  obtain ⟨k, hk, rfl⟩ := hname
  rcases List.mem_append.mp hk with hk | hk
  · exact .inr ⟨g, hg, Group.hasName_iff.mpr (List.mem_map_of_mem hk)⟩
  · obtain rfl := List.mem_singleton.mp hk
    exact .inl rfl

/-- Nothing that the thread sees has got a key. -/
theorem Stays.unchanged (hm : t.Stays entry m) (orderly : m'.store.Orderly)
    (hnext : m.store.next ≤ m'.store.next)
    (runners : ∀ u ∈ m'.runners, u = t ∨ entry.next ≤ u.locals)
    (h : ∀ id ∈ t.view.links, ∀ g', m'.store.group? id = some g' →
      ∃ g, m.store.group? id = some g ∧ g'.keys = g.keys) :
    t.Stays entry m' ∧ t.Extends m.store m'.store := by
  obtain ⟨hextends, hnames⟩ := extends_of_unchanged h
  refine ⟨⟨orderly, Nat.le_trans hm.next_le hnext, runners, fun name hname id hid hne hname' => ?_⟩,
    hextends⟩
  exact hm.apart name (hnames _ t.locals_mem_links name hname) id hid hne (hnames id hid name hname')

/-- The thread has declared a variable. -/
theorem Stays.declared (hm : t.Stays entry m) (hlinks : ∀ id ∈ t.view.links, id < entry.next)
    (runners : ∀ u ∈ m'.runners, u = t ∨ entry.next ≤ u.locals) {key : Key}
    (hadd : t.view.add m.store key none = .ok (true, s))
    (hkeeps : s.Keeps (fun _ => False) m'.store) :
    t.Stays entry m' ∧ t.Extends m.store m'.store := by
  obtain ⟨hdeclare, hnew, hlocals⟩ := extends_of_declare hadd
  have hnext : entry.next ≤ s.next :=
    Nat.le_trans hm.next_le (Thread.keeps_declare hm.orderly hadd).next_le
  obtain ⟨hextends, hnames⟩ := extends_of_unchanged <|
    unchanged_of_ages (t := t) hkeeps.toAges
      (fun id hid => Nat.lt_of_lt_of_le (hlinks id hid) hnext) fun _ _ ho => ho
  refine ⟨⟨hkeeps.orderly, Nat.le_trans hnext hkeeps.next_le, runners, ?_⟩,
    hdeclare.trans hextends⟩
  intro name hname id hid hne hname'
  rcases hlocals name (hnames _ t.locals_mem_links name hname) with rfl | hname
  · exact hnew id hid hne (hnames id hid _ hname')
  · exact hm.apart name hname id hid hne (hdeclare.names hid hne (hnames id hid name hname'))

/-- **What one step in the life of a thread does.** -/
theorem Lives.stays (h : t.Lives below m m') (hlinks : ∀ id ∈ t.view.links, id < entry.next)
    (hm : t.Stays entry m) : t.Stays entry m' ∧ t.Extends m.store m'.store := by
  have hold : ∀ id ∈ t.view.links, id < m.store.next := fun id hid =>
    Nat.lt_of_lt_of_le (hlinks id hid) hm.next_le
  cases h with
  | @next env task task' above above' s s' h =>
    have hnext : Moment.Next env ⟨task, above, s⟩ ⟨task', above', s'⟩ := h.above rfl rfl
    have runners : ∀ u ∈ Moment.runners ⟨task', above', s'⟩, u = t ∨ entry.next ≤ u.locals := by
      intro u hu
      rcases hnext.runners hm.orderly hu with hu | hopens
      · exact hm.runners u hu
      · rw [hopens.locals_eq]
        exact .inr (Nat.le_succ_of_le hm.next_le)
    have steady : s.Ages (fun _ => False) s' →
        t.Stays entry ⟨task', above', s'⟩ ∧ t.Extends s s' := fun hages =>
      hm.unchanged hages.orderly hages.next_le runners
        (unchanged_of_ages hages hold fun _ _ ho => ho)
    rcases hnext.change hm.orderly with
      ⟨-, hkeeps | hdeclares⟩ | ⟨u, -, hopens⟩ | ⟨u, -, hcloses⟩
    · exact steady hkeeps.toAges
    · have hwrites := hdeclares.keeps hm.orderly
      obtain ⟨u, key, s₁, hu, hadd, hkeeps⟩ := hdeclares
      have hmem : u ∈ Moment.runners ⟨task, above, s⟩ :=
        List.mem_append_left _ (Option.mem_toList.mpr hu)
      rcases hm.runners u hmem with rfl | hlater
      · exact hm.declared hlinks runners hadd hkeeps
      · -- the variables of a thread that was entered later are not among what `t` sees
        refine hm.unchanged hwrites.orderly hwrites.next_le runners
          (unchanged_of_ages hwrites.toAges hold ?_)
        rintro id hid ⟨u', hu', rfl⟩
        obtain rfl : u = u' := Option.some.inj (hu.symm.trans hu')
        exact absurd (hlinks _ hid) (Nat.not_lt.mpr hlater)
    · exact steady hopens.toAges
    · exact steady hcloses.toAges
  | commands | command =>
    refine hm.unchanged hm.orderly (Nat.le_refl _) ?_ fun _ _ g hg => ⟨g, hg, rfl⟩
    intro u hu
    exact .inl (List.mem_singleton.mp hu)
  | @between r s s' h keys =>
    have hages := h.ages hm.orderly
    refine hm.unchanged hages.orderly hages.next_le hm.runners fun id hid g' hg' => ?_
    obtain ⟨g, hg, -⟩ := hages.old (hold id hid) hg'
    exact ⟨g, hg, keys id hid g g' hg hg'⟩

/-- **What the life of a thread does to what it sees**, however long it is. -/
theorem Life.stays (h : t.Life below m m') (hlinks : ∀ id ∈ t.view.links, id < entry.next)
    (hm : t.Stays entry m) : t.Stays entry m' ∧ t.Extends m.store m'.store := by
  induction h with
  | refl => exact ⟨hm, .refl t _⟩
  | tail _ hstep ih =>
    obtain ⟨hstays, hextends⟩ := hstep.stays hlinks ih.1
    exact ⟨hstays, ih.2.trans hextends⟩

end Stays

end Thread

/-! ### Threads in the middle of a run -/

namespace Moment

variable {env : Env} {m m' : Moment} {t : Thread} {held : Held} {fs : List Frame} {s₀ : Store}

/-- A step during which the frames below stay is one in the life of the thread above them. -/
theorem Next.lives (h : Next env m m') {above above' below : List Frame}
    (hm : m.frames = above ++ below) (hm' : m'.frames = above' ++ below) :
    t.Lives below ⟨m.task, above, m.store⟩ ⟨m'.task, above', m'.store⟩ := by
  obtain ⟨task, frames, s⟩ := m
  obtain ⟨task', frames', s'⟩ := m'
  subst hm hm'
  exact .next h

/-- Where a thread is in a run that goes on: it lives, with its frame and those below in their
places, or it was left, and then its variables are nobody's. -/
theorem Next.alive_or_left (h : Next env m m') (hm : Lodged s₀ m) (hlt : t.locals < m.store.next)
    {start : Moment}
    (halive : (∃ above, m.frames = above ++ .thread held t :: fs ∧
      t.Life (.thread held t :: fs) start ⟨m.task, above, m.store⟩) ∨ t.locals ∉ m.opened) :
    (∃ above, m'.frames = above ++ .thread held t :: fs ∧
      t.Life (.thread held t :: fs) start ⟨m'.task, above, m'.store⟩) ∨ t.locals ∉ m'.opened := by
  rcases halive with ⟨above, hframes, hlife⟩ | hleft
  · rcases h.frames with hstay | ⟨f, hpush⟩ | ⟨f, r, hpop, -⟩
    · have hframes' := hstay.trans hframes
      exact .inl ⟨above, hframes', hlife.tail (h.lives hframes hframes')⟩
    · have hframes' : m'.frames = (f :: above) ++ .thread held t :: fs := by
        rw [hpush, hframes, List.cons_append]
      exact .inl ⟨f :: above, hframes', hlife.tail (h.lives hframes hframes')⟩
    · cases above with
      | cons f' above =>
        have hframes' : m'.frames = above ++ .thread held t :: fs := by
          rw [hpop, List.cons_append] at hframes
          exact (List.cons.inj hframes).2
        exact .inl ⟨above, hframes', hlife.tail (h.lives hframes hframes')⟩
      | nil =>
        -- the frame that goes is that of the thread, and no other thread has its groups
        right
        rw [hpop, List.nil_append] at hframes
        obtain ⟨rfl, -⟩ := List.cons.inj hframes
        have hopened : m.opened = t.groups ++ m'.opened := by
          rw [opened, threads, hpop, opened, threads]
          rfl
        have hnodup := hm.nodup
        rw [hopened, List.nodup_append] at hnodup
        exact fun hmem => hnodup.2.2 t.locals (by simp [Thread.groups]) t.locals hmem rfl
  · right
    intro hmem
    rcases h.change hm.orderly with ⟨hthreads, -⟩ | ⟨u, hthreads, hopens⟩ | ⟨u, hthreads, -⟩
    · rw [opened, hthreads] at hmem
      exact hleft hmem
    · rw [opened, hthreads, List.flatMap_cons, List.mem_append] at hmem
      rcases hmem with hmem | hmem
      · simp only [Thread.groups, List.mem_cons, List.not_mem_nil, or_false, hopens.inputs_eq,
          hopens.locals_eq] at hmem
        rcases hmem with hmem | hmem
        · exact absurd hlt (hmem ▸ Nat.lt_irrefl _)
        · exact absurd hlt (hmem ▸ Nat.not_succ_lt_self)
      · exact hleft hmem
    · rw [opened, hthreads, List.flatMap_cons, ← opened] at hleft
      exact hleft (List.mem_append_right _ hmem)

/-- As long as a thread is alive in a run, what happens there is its life. -/
theorem Passes.life (h : Passes env m m') (hs₀ : s₀.Orderly) (hm : Lodged s₀ m)
    (hframes : m.frames = .thread held t :: fs) (ht : t ∈ m'.threads) :
    ∃ above, m'.frames = above ++ .thread held t :: fs ∧
      t.Life (.thread held t :: fs) ⟨m.task, [], m.store⟩ ⟨m'.task, above, m'.store⟩ := by
  have hopened : t.locals ∈ m.opened := by
    rw [opened, threads, hframes]
    exact List.mem_append_left _ (by simp [Thread.groups])
  have hall := h.invariant
    (P := fun m' => (Lodged s₀ m' ∧ t.locals < m'.store.next) ∧
      ((∃ above, m'.frames = above ++ .thread held t :: fs ∧
        t.Life (.thread held t :: fs) ⟨m.task, [], m.store⟩ ⟨m'.task, above, m'.store⟩) ∨
      t.locals ∉ m'.opened)) ?_ ⟨⟨hm, hm.opened_lt _ hopened⟩, .inl ⟨[], hframes, .refl⟩⟩
  · refine hall.2.resolve_right fun hleft => hleft ?_
    exact List.mem_flatMap.mpr ⟨t, ht, by simp [Thread.groups]⟩
  · rintro cancelled m₁ m₂ hnext ⟨⟨hlodged, hlt⟩, halive⟩
    have hlodged' := hnext.lodged hlodged hs₀
    refine ⟨⟨hlodged', Nat.lt_of_lt_of_le hlt ?_⟩, hnext.alive_or_left hlodged hlt halive⟩
    exact (hnext.changes.ages hlodged.orderly).next_le

/-- **The life of a thread that is entered in a run** goes on for as long as the thread is alive,
above its frame and those that were there before. -/
theorem Passes.life_entered {s entry : Store} {c : Call} (hs₀ : s₀.Orderly)
    (hm : Lodged s₀ ⟨.call held c, fs, s⟩) (hdepth : c.scope.depth ≤ env.limit)
    (he : Thread.enter s c.script c.invoker c.args c.scope = (.ok t, entry))
    (h : Passes env ⟨.commands (held.insertMany c.invoker.refs) t 0 none c.script.commands,
      .thread held t :: fs,
      entry.letGo (held.insertMany c.invoker.refs) (c.args.flatMap Context.refs)⟩ m')
    (ht : t ∈ m'.threads) :
    ∃ above, m'.frames = above ++ .thread held t :: fs ∧
      t.Life (.thread held t :: fs) ⟨.done (.ok none), [], entry⟩ ⟨m'.task, above, m'.store⟩ := by
  have hentered := (Next.entered hdepth he).lodged hm hs₀
  obtain ⟨above, hframes, hlife⟩ := h.life hs₀ hentered rfl ht
  have hgo : t.Lives (.thread held t :: fs) ⟨.done (.ok none), [], entry⟩ ⟨.done (.ok none), [],
      entry.letGo (held.insertMany c.invoker.refs) (c.args.flatMap Context.refs)⟩ := by
    refine .between ((Store.Changes.refl entry).letGo _ _) fun id _ g g' hg hg' => ?_
    have hsame := Store.group?_letGo hg'
    rw [hg] at hsame
    cases hsame
    rfl
  exact ⟨above, hframes, .head hgo (.head .commands hlife)⟩

end Moment

/-! ### Finding names again -/

/-- The places of the slots of a group with their keys, if `id` is its number. -/
def Group.places (g : Group) (id : GroupId) : List (Place × Key) :=
  g.keys.mapIdx fun i key => (⟨id, i⟩, key)

theorem Group.places_eq (g : Group) (id : GroupId) :
    g.places id = (g.entries id).map fun e => (e.1, e.2.key) := by
  apply List.ext_getElem?
  intro i
  simp only [places, keys, entries, List.getElem?_map, List.getElem?_mapIdx, Option.map_map]
  rfl

/-- The places of slots with their keys, in the order in which the groups are looked into. -/
def Store.places (s : Store) (ids : List GroupId) : List (Place × Key) :=
  (s.entries ids).map fun e => (e.1, e.2.key)

theorem Store.places_cons {s : Store} {id : GroupId} {ids : List GroupId} {g : Group}
    (hg : s.group? id = some g) : s.places (id :: ids) = g.places id ++ s.places ids := by
  rw [places, entries_cons hg, List.map_append, ← Group.places_eq, places]

/-- The first slot of a name is the first place of it. -/
theorem View.find?_places (v : View) (s : Store) (name : String) :
    (s.places v.links).find? (·.2.name == name) =
      (v.named? s name).map fun e => (e.1, e.2.key) := by
  rw [Store.places, List.find?_map]
  rfl

namespace Thread

variable {t : Thread} {s s' : Store}

/-- More places come at the end, if at all: what is looked into before the variables is as it
was. -/
theorem Extends.places_prefix (h : t.Extends s s') (live : s'.AllLive t.view.links)
    (hlocals : t.locals ∉ t.view.linked) : s.places t.view.links <+: s'.places t.view.links := by
  have hall : ∀ ids : List GroupId, ids ⊆ t.view.linked →
      s.places (ids ++ [t.locals]) <+: s'.places (ids ++ [t.locals]) := by
    intro ids
    induction ids with
    | nil =>
      intro _
      obtain ⟨g', hg'⟩ := Store.isLive_iff.mp (live _ t.locals_mem_links)
      obtain ⟨g, hg, ⟨more, hmore⟩, -⟩ := h _ t.locals_mem_links g' hg'
      have hnil : ∀ s : Store, s.places [] = [] := fun _ => rfl
      rw [List.nil_append, Store.places_cons hg, Store.places_cons hg', hnil, hnil,
        List.append_nil, List.append_nil, Group.places, Group.places, ← hmore, List.mapIdx_append]
      exact List.prefix_append _ _
    | cons id ids ih =>
      intro hsubset
      have hid : id ∈ t.view.links := List.mem_append_left _ (hsubset List.mem_cons_self)
      have hne : id ≠ t.locals := fun heq => hlocals (heq ▸ hsubset List.mem_cons_self)
      obtain ⟨g', hg'⟩ := Store.isLive_iff.mp (live id hid)
      obtain ⟨g, hg, -, hkeys⟩ := h id hid g' hg'
      rw [List.cons_append, Store.places_cons hg, Store.places_cons hg', Group.places,
        Group.places, hkeys hne]
      refine (List.prefix_append_right_inj _).mpr (ih ?_)
      exact fun i hi => hsubset (List.mem_cons_of_mem _ hi)
  exact hall t.view.linked (List.Subset.refl _)

/-- **A name that is found is found again**, at its place and with its key. -/
theorem Extends.named? (h : t.Extends s s') (live : s'.AllLive t.view.links)
    (hlocals : t.locals ∉ t.view.linked) {name : String} {p : Place} {x : Slot}
    (hx : t.view.named? s name = some (p, x)) :
    ∃ new, t.view.named? s' name = some (p, ⟨x.key, new⟩) := by
  have hfind : (s.places t.view.links).find? (·.2.name == name) = some (p, x.key) := by
    rw [View.find?_places, hx]
    rfl
  have hfind' := (h.places_prefix live hlocals).find?_eq_some hfind
  rw [View.find?_places, Option.map_eq_some_iff] at hfind'
  obtain ⟨⟨p', key, new⟩, hnamed, heq⟩ := hfind'
  cases heq
  exact ⟨new, hnamed⟩

/-! ### Entering -/

/-- A thread is entered without variables. -/
theorem enter_locals {script : Script} {invoker : Context} {args : List Context} {scope : Scope}
    (he : enter s script invoker args scope = (.ok t, s')) :
    s'.group? t.locals = some ⟨.locals, []⟩ := by
  rw [enter] at he
  split at he
  · cases he
  · split at he
    · cases he
    · cases he
      exact (Store.group?_write _ _ _ _).trans (if_pos rfl)

/-- When a thread is entered, its life begins. -/
theorem stays_entered {before entry : Store} {r : Except Error Context}
    (hopens : t.Opens before entry) (hlocals : entry.group? t.locals = some ⟨.locals, []⟩) :
    t.Stays entry ⟨.done r, [], entry⟩ where
  orderly := hopens.orderly
  next_le := Nat.le_refl _
  runners u hu := absurd hu List.not_mem_nil
  apart name hname := by
    obtain ⟨g, hg, hname⟩ := hname
    rw [hlocals] at hg
    cases hg
    cases hname

end Thread

namespace Session

/-- Whether a call can be entered in a session when its memory is as given: by the host, or at a
moment of a run. -/
inductive Enters (s : Session) : Store → Call → Prop where
  | host {c : Call} (isOpen : s.isOpen = true) (known : s.KnowsCall c)
      (given : ∀ id, c.Mentions id → s.Mentions id) : Enters s s.store c
  | run {start : Task} {m : Moment} {held : Held} {c : Call} (hstart : s.Underway start)
      (hm : Moment.Passes s.env ⟨start, [], s.store⟩ m) (hcall : m.task = .call held c) :
      Enters s m.store c

variable {s : Session} {before entry : Store} {c : Call} {t : Thread}

theorem Reachable.orderly_of_enters (h : s.Reachable) (hc : s.Enters before c) :
    before.Orderly := by
  cases hc with
  | host => exact h.orderly
  | run hstart hm hcall => exact hm.orderly h.orderly

/-- The numbers a call brings with it were given out. -/
theorem Reachable.call_lt (h : s.Reachable) (hc : s.Enters before c) :
    (∀ id, c.Mentions id → id < before.next) ∧
      ∀ o, c.invoker = some o → o.group < before.next := by
  cases hc with
  | host isOpen known given =>
    refine ⟨fun id hid => h.given (given id hid), fun o ho => ?_⟩
    exact h.given (.inl ⟨o, known.1 o ho, rfl⟩)
  | @run start m held c hstart hm hcall =>
    have hages := hm.changes.ages h.orderly
    have hready := (hm.secure (h.sound.secure hstart)).ready
    refine ⟨fun id hid => ?_, fun o ho => ?_⟩
    · refine Nat.lt_of_lt_of_le (h.mentions_lt hstart hm (.inl ?_)) hages.next_le
      rw [hcall]
      exact hid
    · rw [hcall] at hready
      obtain ⟨payload, hobject⟩ := hready.1 o ho
      exact hages.orderly.object_lt hobject

/-- What a thread sees besides its variables was there before these. -/
theorem Reachable.linked_lt (h : s.Reachable) (hc : s.Enters before c)
    (he : Thread.enter before c.script c.invoker c.args c.scope = (.ok t, entry)) :
    ∀ id ∈ t.view.linked, id < t.locals := by
  have hopens := Thread.opens_enter (h.orderly_of_enters hc) he
  obtain ⟨hscript, hinvoker, hscope⟩ := Thread.enter_eq_ok he
  obtain ⟨hmentions, hobject⟩ := h.call_lt hc
  intro id hid
  rw [hopens.locals_eq]
  simp only [Thread.view, hscript, hinvoker, hscope, List.append_assoc, List.mem_append,
    Option.mem_toList, List.mem_singleton] at hid
  rcases hid with hid | hid | hid | rfl
  · exact Nat.lt_succ_of_lt (hmentions id (.inl (Script.mentions_iff.mpr (.inl hid))))
  · obtain ⟨o, ho, rfl⟩ := Option.map_eq_some_iff.mp hid
    exact Nat.lt_succ_of_lt (hobject o ho)
  · exact Nat.lt_succ_of_lt (hmentions id (.inr hid))
  · rw [hopens.inputs_eq]
    exact Nat.lt_succ_self _

/-! ### Hosts -/

end Session

theorem Moment.Passes.life_nil {env : Env} {m m' : Moment} (h : Passes env m m') (t : Thread) :
    t.Life [] m m' := by
  induction h with
  | refl => exact .refl
  | tail _ hmove ih =>
    obtain ⟨cancelled, hnext⟩ := hmove
    exact ih.tail (hnext.lives (List.append_nil _).symm (List.append_nil _).symm)

namespace Session

/-- The steps that execute commands in the thread under a name. -/
inductive Executes (name : String) : Step → Prop where
  | one {text : CommandText} {ctx handle : Option String} :
      Executes name (.call (.execute text ctx name handle))
  | all {texts : List CommandText} {ctx handle : Option String} :
      Executes name (.call (.executeAll texts ctx name handle))

/-- Whether a session differs from another one by what is part of the life of a thread. -/
def LivesOn (s : Session) (t : Thread) (s' : Session) : Prop :=
  s'.threads = s.threads ∧
    ∀ r, ∃ r', t.Life [] ⟨.done r, [], s.store⟩ ⟨.done r', [], s'.store⟩

theorem livesOn_refl (s : Session) (t : Thread) : s.LivesOn t s :=
  ⟨rfl, fun r => ⟨r, .refl⟩⟩

theorem LivesOn.trans {s s' s'' : Session} (h : s.LivesOn t s') (h' : s'.LivesOn t s'') :
    s.LivesOn t s'' := by
  refine ⟨h'.1.trans h.1, fun r => ?_⟩
  obtain ⟨r', hlife⟩ := h.2 r
  obtain ⟨r'', hlife'⟩ := h'.2 r'
  exact ⟨r'', Relation.ReflTransGen.trans hlife hlife'⟩

/-- What is tidied up takes no slot away and adds none. -/
theorem livesOn_tidy (s : Session) (t : Thread) : s.LivesOn t s.tidy := by
  refine ⟨rfl, fun r => ⟨r, .single (.between Effect.tidy.changes fun id _ g g' hg hg' => ?_)⟩⟩
  have hsettled := Store.group?_letGo hg'
  rw [Store.retain, Store.group?_releaseAll] at hsettled
  split at hsettled
  · cases hsettled
  · rw [hg] at hsettled
    cases hsettled
    rfl

/-- A command, or commands, are executed in a thread from their start to their end, whoever is
cancelled in the course of it. -/
theorem livesOn_run (s : Session) {task : Task} {out : Outcome Context}
    (hrun : Moment.ComesTo s.env ⟨task, [], s.store⟩ out)
    (hbegin : ∀ r, t.Lives [] ⟨.done r, [], s.store⟩ ⟨task, [], s.store⟩) :
    s.LivesOn t { s with store := out.2 } :=
  ⟨rfl, fun r => ⟨out.1, .head (hbegin r) (Moment.Passes.life_nil hrun t)⟩⟩

end Session

namespace Host

open Session

variable {s s₀ : Session} {t : Thread}

/-- To show what came of something touches neither the memory nor the threads. -/
theorem leaves_answerContext {name : Option String} {ctx : Context} (h : s₀.LivesOn t s) :
    Leaves s (answerContext name ctx) (s₀.LivesOn t) := by
  refine leaves_bind_reads reads_inspectContext (fun n _ => h) fun n _ _ _ => ?_
  cases name with
  | none => exact leaves_pure h
  | some name => exact leaves_bind_modify (leaves_pure h)

/-- First the step reads. -/
theorem leaves_bind_livesOn {α β : Type} {m : Host α} {f : α → Host β} {R : α → Prop} {k : Nat}
    (h : s₀.LivesOn t s) (hm : Reads (s.numbered k) m R)
    (hf : ∀ n a, R a → Leaves (s.numbered n) (f a) (s₀.LivesOn t)) :
    Leaves (s.numbered k) (m >>= f) (s₀.LivesOn t) :=
  leaves_bind_reads hm (fun _ _ => h) fun n a _ ha => hf n a ha

theorem leaves_execute {text : CommandText} {ctx handle : Option String} {name : String} {k : Nat}
    (ht : s.threads.find? name = some t) :
    Leaves (s.numbered k) (CallStep.execute text ctx name handle).take (s.LivesOn t) := by
  have hrefl := livesOn_refl s t
  refine leaves_bind_livesOn hrefl reads_readCommand fun _ c _ => ?_
  refine leaves_bind_livesOn hrefl reads_findContext fun _ ctx _ => ?_
  refine leaves_bind_livesOn hrefl reads_find fun n t' ht' => ?_
  obtain rfl : t = t' := Option.some.inj (ht.symm.trans ht')
  have hlife : s.LivesOn t { s.numbered n with
      store := (s.env.execute s.held t ctx c s.store).2 } :=
    livesOn_run s (Moment.comesTo_outcome s.env ⟨.command s.held t ctx c, [], s.store⟩)
      fun _ => .command
  exact leaves_bind_onStore (fun _ _ => hlife) fun _ _ => leaves_answerContext hlife

theorem leaves_executeAll {texts : List CommandText} {ctx handle : Option String} {name : String}
    {k : Nat} (ht : s.threads.find? name = some t) :
    Leaves (s.numbered k) (CallStep.executeAll texts ctx name handle).take (s.LivesOn t) := by
  have hrefl := livesOn_refl s t
  refine leaves_bind_livesOn hrefl reads_readCommands fun _ cs _ => ?_
  refine leaves_bind_livesOn hrefl reads_findContext fun _ ctx _ => ?_
  refine leaves_bind_livesOn hrefl reads_find fun n t' ht' => ?_
  obtain rfl : t = t' := Option.some.inj (ht.symm.trans ht')
  have hlife : s.LivesOn t { s.numbered n with
      store := (s.env.executeAll s.held t ctx cs s.store).2 } :=
    livesOn_run s (Moment.comesTo_outcome s.env ⟨.commands s.held t 0 ctx cs, [], s.store⟩)
      fun _ => .commands
  exact leaves_bind_onStore (fun _ _ => hlife) fun _ _ => leaves_answerContext hlife

theorem leaves_executes {step : Step} {name : String} (hstep : Executes name step)
    (ht : s.threads.find? name = some t) : Leaves s step.take (s.LivesOn t) := by
  cases hstep with
  | one => exact leaves_execute (k := s.fresh) ht
  | all => exact leaves_executeAll (k := s.fresh) ht

end Host

namespace Session

variable {s : Session} {before entry : Store} {c : Call} {t : Thread}

/-- **When a host executes commands in a thread, one step after the other, this is its life.** -/
theorem livesOn_steps (s : Session) {name : String} (ht : s.threads.find? name = some t)
    (steps : List Step) (hsteps : ∀ step ∈ steps, Executes name step) :
    s.LivesOn t (s.steps steps).2 := by
  induction steps generalizing s with
  | nil => exact livesOn_refl s t
  | cons step steps ih =>
    have hstep : s.LivesOn t (s.step step).2 := by
      have hunsettled : s.LivesOn t (s.unsettled step) :=
        Host.leaves_executes (hsteps step List.mem_cons_self) ht
      exact hunsettled.trans (livesOn_tidy _ t)
    refine hstep.trans (ih _ (hstep.1 ▸ ht) fun step hmem => ?_)
    exact hsteps step (List.mem_cons_of_mem _ hmem)

/-! ### Stability -/

/-- **Names are stable during a call.**  Take any thread, entered by the host or at any moment of
any run, and two moments of its life.  A name that is found at the first one is found at the
second, if the groups that the thread sees are live then, with the same key and at the same place.
And a name that occurs in two of these groups did so when the thread was entered. -/
theorem names_stable (hs : s.Reachable) (hc : s.Enters before c)
    (he : Thread.enter before c.script c.invoker c.args c.scope = (.ok t, entry))
    {below : List Frame} {m₁ m₂ : Moment}
    (h₁ : t.Life below ⟨.done (.ok none), [], entry⟩ m₁) (h₂ : t.Life below m₁ m₂) :
    (∀ name key, t.view.findKey? m₁.store name = .ok (some key) →
      m₂.store.AllLive t.view.links →
      t.view.findKey? m₂.store name = .ok (some key) ∧
      ∃ p old new, t.view.named? m₁.store name = some (p, ⟨key, old⟩) ∧
        t.view.named? m₂.store name = some (p, ⟨key, new⟩)) ∧
    ∀ name, ∀ a ∈ t.view.links, ∀ b ∈ t.view.links, a ≠ b →
      m₂.store.Names a name → m₂.store.Names b name → entry.Names a name ∧ entry.Names b name := by
  have hopens := Thread.opens_enter (hs.orderly_of_enters hc) he
  have hlinked := hs.linked_lt hc he
  have hlocals : t.locals < entry.next :=
    hopens.orderly.lt_of_standing (hopens.standing_eq ▸ .inl rfl)
  have hlinks : ∀ id ∈ t.view.links, id < entry.next := by
    intro id hid
    rcases List.mem_append.mp hid with hid | hid
    · exact Nat.lt_trans (hlinked id hid) hlocals
    · obtain rfl := List.mem_singleton.mp hid
      exact hlocals
  obtain ⟨hstays₁, hextends₁⟩ :=
    h₁.stays hlinks (Thread.stays_entered hopens (Thread.enter_locals he))
  obtain ⟨hstays₂, hextends₂⟩ := h₂.stays hlinks hstays₁
  constructor
  · intro name key hfind live
    rw [View.findKey?_eq (hextends₂.allLive live)] at hfind
    obtain ⟨⟨p, x⟩, hx, rfl⟩ := Option.map_eq_some_iff.mp (Except.ok.inj hfind)
    obtain ⟨new, hnew⟩ := hextends₂.named? live (fun hmem => Nat.lt_irrefl _ (hlinked _ hmem)) hx
    refine ⟨?_, p, x.value, new, hx, hnew⟩
    rw [View.findKey?_eq live, hnew]
    rfl
  · intro name a ha b hb hne hname hname'
    have hextends := hextends₁.trans hextends₂
    have hlocals : ∀ {a b}, a ∈ t.view.links → b ∈ t.view.links → a ≠ b → m₂.store.Names a name →
        m₂.store.Names b name → a ≠ t.locals := by
      rintro a b ha hb hne hname hname' rfl
      exact hstays₂.apart name hname b hb hne.symm hname'
    exact ⟨hextends.names ha (hlocals ha hb hne hname hname') hname,
      hextends.names hb (hlocals hb ha hne.symm hname' hname) hname'⟩

/-- A host has a group to lend, and two scripts. -/
def lendSteps : List Step := [
  .memory (.alloc .statics (some [("x", "Text")]) "g"),
  .call (.script "Inner" [] none [.mk (.declare "v" "Text") []] none none "inner"),
  .call (.script "Outer" [] none [] none none "outer")]

def lending : Session :=
  ((start {}).steps lendSteps).2

/-- One of the scripts is entered and lent the group. -/
def lent : Session :=
  (lending.step (.call (.enter { script := "outer" } { context := some (.group "g") } "t"))).2

/-- The thread declares a variable. -/
def declared : Session :=
  (lent.steps [.call (.executeAll [.mk (.declare "v" "Text") []] none "t" none)]).2

/-- It calls a script that declares one of that name, and then tries to have a variable with a name
from the group it is lent. -/
def declaredAgain : Session :=
  (declared.steps [.call (.executeAll
    [.mk (.invoke [] (.script "inner")) [], .mk (.declare "x" "Text") []] none "t" none)]).2

namespace Sample

def borrow : Call where
  script := .mk 1 ⟨"Outer"⟩ [] none [] none
  scope := { context := some 1 }

def borrower : Thread :=
  ⟨borrow.script, none, borrow.scope, 2, 3⟩

end Sample

theorem names_stable_lending :
    Sample.borrower.view.links = [1, 2, 3] ∧
    Sample.borrower.view.findKey? declared.store "v" = .ok (some ⟨"v", ⟨"Text"⟩⟩) ∧
    Sample.borrower.view.findKey? declaredAgain.store "v" = .ok (some ⟨"v", ⟨"Text"⟩⟩) ∧
    (∃ p old new,
      Sample.borrower.view.named? declared.store "v" = some (p, ⟨⟨"v", ⟨"Text"⟩⟩, old⟩) ∧
      Sample.borrower.view.named? declaredAgain.store "v" = some (p, ⟨⟨"v", ⟨"Text"⟩⟩, new⟩)) ∧
    declaredAgain.store.Names 1 "x" ∧ ¬ declaredAgain.store.Names 3 "x" := by
  have hreach : lending.Reachable := reachable_steps {} lendSteps
  have hc : lending.Enters lending.store Sample.borrow := by
    refine .host (by decide +kernel) ⟨fun o ho => (by cases ho), fun a ha => ?_⟩ ?_
    · exact absurd ha List.not_mem_nil
    · rintro id (hid | hid)
      · simp [Sample.borrow, Script.Mentions, commandsMention] at hid
      · cases hid
        exact .inr (.inl (by decide +kernel))
  obtain ⟨entry, he, hlent⟩ : ∃ entry,
      Thread.enter lending.store Sample.borrow.script none [] Sample.borrow.scope =
        (.ok Sample.borrower, entry) ∧
      lent = (lending.entered (.ok Sample.borrower, entry) "t").tidy := ⟨_, rfl, rfl⟩
  have ht : lent.threads.find? "t" = some Sample.borrower := rfl
  -- it is entered and things are tidied up, and then the host takes two steps
  obtain ⟨r₀, hlife₀⟩ := (livesOn_tidy (lending.entered (.ok Sample.borrower, entry) "t")
    Sample.borrower).2 (.ok none)
  rw [← hlent] at hlife₀
  have hdeclared : lent.LivesOn Sample.borrower declared :=
    livesOn_steps lent ht _ fun _ hstep => List.mem_singleton.mp hstep ▸ .all
  have hagain : declared.LivesOn Sample.borrower declaredAgain :=
    livesOn_steps declared (hdeclared.1 ▸ ht) _ fun _ hstep => List.mem_singleton.mp hstep ▸ .all
  obtain ⟨r₁, hlife₁⟩ := hdeclared.2 r₀
  obtain ⟨r₂, hlife₂⟩ := hagain.2 r₁
  obtain ⟨hfound, htwice⟩ := names_stable hreach hc he (hlife₀.trans hlife₁) hlife₂
  have hfind : Sample.borrower.view.findKey? declared.store "v" = .ok (some ⟨"v", ⟨"Text"⟩⟩) := rfl
  have live : declaredAgain.store.AllLive Sample.borrower.view.links := by
    unfold Store.AllLive
    decide +kernel
  obtain ⟨hfind', hplace⟩ := hfound "v" _ hfind live
  refine ⟨rfl, hfind, hfind', hplace, ⟨_, rfl, rfl⟩, fun hlocals => ?_⟩
  obtain ⟨-, g, hg, hname⟩ := htwice "x" 1 (by decide) Sample.borrower.locals (by decide)
    (by decide) ⟨_, rfl, rfl⟩ hlocals
  rw [Thread.enter_locals he] at hg
  cases hg
  cases hname

end Session

end Steward

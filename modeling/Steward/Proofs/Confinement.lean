/-
Confinement: no run gains a capability.

A scope that comes up in a run is the one the run was started with, or the child of one that
came up before (`Next.scopes`), and a child holds what its parent holds.  So every thread of a
run, however it came about, holds exactly the capabilities the run was started with.

* **`Next.allowed`** — a command is dispatched only if its thread holds what it takes;
* **`comesTo_of_denied`** — a command that is turned away ends the whole run, which changes
  nothing more but leaves its threads;
* **`Store.letGoUpTo_cases`** — what goes with a reference that is dropped is what it led to and
  nobody holds;
* **`capability_confinement`** — these facts, about every moment of every run.
-/
import Steward.Proofs.Moments
import Steward.Proofs.SoundStore

namespace Steward

open Std (TreeSet)

/-! ### Scopes -/

/-- The scope of a task. -/
@[simp]
def Task.scope? : Task → Option Scope
  | call _ c => some c.scope
  | construct _ _ _ scope => some scope
  | commands _ t _ _ _ => some t.scope
  | command _ t _ _ => some t.scope
  | dispatched _ t _ _ => some t.scope
  | inputs _ t _ _ _ _ => some t.scope
  | done _ => none

/-- The scope of the thread that a frame belongs to. -/
@[simp]
def Frame.scope? : Frame → Option Scope
  | commands _ t _ _ => some t.scope
  | inputs _ t _ _ _ _ => some t.scope
  | object _ _ _ => none
  | thread _ t => some t.scope

/-- A frame goes on in its own thread. -/
theorem Frame.scope?_resume {f : Frame} {ctx : Context} {s : Store} {x : Scope}
    (h : (f.resume ctx s).1.scope? = some x) : f.scope? = some x := by
  cases f with
  | commands held t completed rest => exact h
  | inputs held t ctx script args rest => exact h
  | object held ctx o => cases h
  | thread held t =>
    rw [resume] at h
    split at h
    · cases h
    · cases h

namespace Moment

variable {env : Env} {m m' : Moment}

/-- The scopes of the task and of what waits for it. -/
def scopes (m : Moment) : List Scope :=
  m.task.scope?.toList ++ m.frames.filterMap Frame.scope?

@[simp]
theorem mem_scopes {task : Task} {fs : List Frame} {s : Store} {x : Scope} :
    x ∈ scopes ⟨task, fs, s⟩ ↔ task.scope? = some x ∨ ∃ f ∈ fs, f.scope? = some x := by
  simp [scopes]

theorem mem_scopes_of_task {x : Scope} (h : m.task.scope? = some x) : x ∈ m.scopes :=
  List.mem_append_left _ (Option.mem_toList.mpr h)

theorem scope_mem_scopes {t : Thread} (ht : t ∈ m.threads) : t.scope ∈ m.scopes := by
  obtain ⟨f, hf, halive⟩ := List.mem_filterMap.mp ht
  refine List.mem_append_right _ (List.mem_filterMap.mpr ⟨f, hf, ?_⟩)
  cases f with
  | thread held u =>
    cases halive
    rfl
  | commands held u completed rest => cases halive
  | inputs held u ctx script args rest => cases halive
  | object held ctx o => cases halive

/-- **Where scopes come from**: each was there before, or is the child of one that was. -/
theorem Next.scopes (h : Next env m m') {x : Scope} (hx : x ∈ m'.scopes) :
    x ∈ m.scopes ∨ ∃ y ∈ m.scopes, x = y.child := by
  cases h with
  | entered h he =>
    obtain ⟨-, -, hscope⟩ := Thread.enter_eq_ok he
    rw [mem_scopes] at hx
    simp_all
  | create ha | invoke =>
    -- what the thread asks for runs in the child of its scope
    simp only [mem_scopes, Task.scope?, Option.some.injEq] at hx ⊢
    rcases hx with rfl | hx
    · exact .inr ⟨_, .inl rfl, rfl⟩
    · exact .inl (.inr hx)
  | resume =>
    simp only [mem_scopes, List.mem_cons, exists_eq_or_imp] at hx ⊢
    exact .inl (.inr (hx.imp Frame.scope?_resume id))
  | tooDeep | notEntered | made | noConstructor | callConstructor | finished | cancelled | turn
  | denied | dispatch | performed | failed | noScript | prepare | input | abandon =>
    left
    simp_all

/-- What holds of the scopes at first, and of a child if of its parent, holds of all scopes. -/
theorem Passes.scopes {P : Scope → Prop} (hchild : ∀ x, P x → P x.child) (h : Passes env m m')
    (hm : ∀ x ∈ m.scopes, P x) : ∀ x ∈ m'.scopes, P x := by
  refine h.invariant (P := fun m => ∀ x ∈ m.scopes, P x) ?_ hm
  intro cancelled m m' hnext ih x hx
  rcases hnext.scopes hx with hx | ⟨y, hy, rfl⟩
  · exact ih x hx
  · exact hchild y (ih y hy)

/-! ### The gate -/

/-- A command is dispatched only through the gate. -/
theorem Next.allowed (h : Next env m m') {held : Held} {t : Thread} {ctx : Context} {c : Command}
    (htask : m'.task = .dispatched held t ctx c) :
    t.scope.capabilities.isSuperset c.requires = true := by
  cases h with
  | dispatch h =>
    cases htask
    exact h
  | @resume ctx f fs s =>
    cases f with
    | thread held t =>
      dsimp only [Frame.resume] at htask
      split at htask
      · cases htask
      · cases htask
    | commands | inputs | object => cases htask
  | _ => cases htask

/-- The error goes out through everything that waits, and threads are left on the way. -/
theorem foldl_outcome_error (env : Env) (e : Error) (fs : List Frame) (s : Store) :
    fs.foldl (fun r f => f.outcome env r) (.error e, s) =
      (.error e, (fs.filterMap Frame.alive?).foldl (fun s t => t.leave s) s) := by
  induction fs generalizing s with
  | nil => rfl
  | cons f fs ih =>
    rw [List.foldl_cons, Frame.outcome, ih]
    cases f with
    | thread | commands | inputs | object => rfl

/-- With a command that is turned away nothing more changes, but the threads that are alive are
left. -/
theorem outcome_of_denied {held : Held} {t : Thread} {ctx : Context} {c : Command}
    (htask : m.task = .command held t ctx c)
    (hgate : t.scope.capabilities.isSuperset c.requires = false) :
    m.outcome env =
      (.error (.capabilityDenied c.action.label (t.scope.capabilities.missing c.requires)),
        m.threads.foldl (fun s t => t.leave s) m.store) := by
  rw [outcome, htask, Task.outcome, Env.execute_eq, hgate, if_neg Bool.false_ne_true,
    foldl_outcome_error, threads]

/-- A command that is turned away is not dispatched, and nothing comes after it but the way out of
the error. -/
theorem Passes.undisturbed_of_denied {held : Held} {t : Thread} {ctx : Context} {c : Command}
    (h : Passes env m m') (htask : m.task = .command held t ctx c)
    (hgate : t.scope.capabilities.isSuperset c.requires = false) :
    (m' = m ∨ m'.task = .done (.error
      (.capabilityDenied c.action.label (t.scope.capabilities.missing c.requires)))) ∧
    Undisturbed env m m' := by
  rcases h.cases_head with rfl | ⟨cancelled, m₁, hnext, hrest⟩
  · exact ⟨.inl rfl, .refl⟩
  · obtain ⟨task, fs, s⟩ := m
    dsimp only at htask
    subst htask
    cases hnext with
    | denied _ =>
      obtain ⟨herror, hundisturbed⟩ := hrest.undisturbed_of_error rfl
      exact ⟨.inr herror, .head (.denied hgate) hundisturbed⟩
    | dispatch hopen =>
      rw [hgate] at hopen
      cases hopen

/-- **A command that is turned away ends the run**, and the run comes to nothing else, whoever is
cancelled on the way out. -/
theorem comesTo_of_denied {held : Held} {t : Thread} {ctx : Context} {c : Command}
    (htask : m.task = .command held t ctx c)
    (hgate : t.scope.capabilities.isSuperset c.requires = false) (out : Outcome Context) :
    m.ComesTo env out ↔ out =
      (.error (.capabilityDenied c.action.label (t.scope.capabilities.missing c.requires)),
        m.threads.foldl (fun s t => t.leave s) m.store) := by
  rw [← outcome_of_denied htask hgate]
  constructor
  · intro h
    exact (Passes.undisturbed_of_denied h htask hgate).2.outcome_eq
  · rintro rfl
    exact comesTo_outcome env m

end Moment

/-! ### What goes with a reference -/

namespace Store

/-- Whether the slots of a group lead to an object, through any number of objects. -/
def LeadsTo (s : Store) : GroupId → GroupId → Prop :=
  Relation.ReflTransGen fun user id => id ∈ s.valuesIn user

theorem leadsTo_of_discard {s : Store} {gone a b : GroupId} (h : (s.discard gone).LeadsTo a b) :
    s.LeadsTo a b := by
  refine Relation.ReflTransGen.mono (fun user id hid => ?_) a b h
  change id ∈ (s.release gone).valuesIn user at hid
  rw [valuesIn_release] at hid
  split at hid
  · cases hid
  · exact hid

theorem next_letGo (s : Store) (held : Held) (dropped : List GroupId) :
    (s.letGo held dropped).next = s.next :=
  letGoUpTo_induct (P := fun t => t.next = s.next) (fun _ _ h _ _ => h) _ dropped rfl

/-- A group stays as it is, or it goes with its object, to which a dropped reference led and
which is not held. -/
theorem letGoUpTo_cases (held : Held) (n : Nat) (dropped : List GroupId) (s : Store)
    (id : GroupId) :
    (letGoUpTo held n dropped s).group? id = s.group? id ∨
      (letGoUpTo held n dropped s).group? id = none ∧
      (letGoUpTo held n dropped s).objectAt? id = none ∧
      id ∉ held ∧ ∃ root ∈ dropped, s.LeadsTo root id := by
  induction n generalizing dropped s with
  | zero => exact .inl rfl
  | succ n ih =>
    rw [letGoUpTo]
    split
    · exact .inl rfl
    · rename_i first rest heq
      have hmem : ∀ other ∈ first :: rest, other ∈ dropped := by
        intro other hother
        rw [← heq] at hother
        exact (List.dropWhile_suffix _).subset hother
      have hfirst : first ∉ held := by
        intro hheld
        have hhead := List.head?_dropWhile_not
          (fun id => s.isReferenced held id || !s.objects.contains id) dropped
        rw [heq] at hhead
        simp [isReferenced, TreeSet.mem_iff_contains.mp hheld] at hhead
      by_cases hid : first = id
      · subst hid
        -- once gone it does not come back
        have hgone :
            (letGoUpTo held n (s.valuesIn first ++ rest) (s.discard first)).group? first = none ∧
            (letGoUpTo held n (s.valuesIn first ++ rest) (s.discard first)).objectAt? first =
              none := by
          refine letGoUpTo_induct
            (P := fun t => t.group? first = none ∧ t.objectAt? first = none) ?_ n _ (by simp)
          intro t other ht _ _
          simp [ht]
        exact .inr ⟨hgone.1, hgone.2, hfirst, first, hmem first List.mem_cons_self, .refl⟩
      · rcases ih (s.valuesIn first ++ rest) (s.discard first) with hsame | ⟨hg, ho, hheld, hlead⟩
        · exact .inl (by rw [hsame, group?_discard, if_neg hid])
        · refine .inr ⟨hg, ho, hheld, ?_⟩
          obtain ⟨root, hroot, hlead⟩ := hlead
          have hlead := leadsTo_of_discard hlead
          rcases List.mem_append.mp hroot with hroot | hroot
          · exact ⟨first, hmem first List.mem_cons_self, .head hroot hlead⟩
          · exact ⟨root, hmem root (List.mem_cons_of_mem _ hroot), hlead⟩

/-- In a sound store no slot that is left refers to what went. -/
theorem Sound.not_mem_valuesIn {s : Store} (h : s.Sound) {id : GroupId}
    (hid : s.objectAt? id = none) (user : GroupId) : id ∉ s.valuesIn user := by
  intro hmem
  rw [valuesIn] at hmem
  cases hg : s.group? user with
  | none => simp [hg] at hmem
  | some g =>
    obtain ⟨v, hv, hgroup⟩ : ∃ v ∈ g.values, v.group = id := by
      simpa [hg, Group.refs] using hmem
    obtain ⟨p, hp⟩ := h.present hg v hv
    rw [hgroup, hid] at hp
    cases hp

/-- Whether `s'` is `s` without some of the groups that only the context kept: each belongs to
an object that the context leads to, is not held, and is not in a slot that is left. -/
structure LosesOnly (s s' : Store) (held : Held) (ctx : Context) : Prop where
  next_eq : s'.next = s.next
  group : ∀ id, s'.group? id = s.group? id ∨
    s'.group? id = none ∧ id ∉ held ∧ (∃ o, ctx = some o ∧ s.LeadsTo o.group id) ∧
      (s.Sound → ∀ user, id ∉ s'.valuesIn user)

theorem losesOnly_letGo (s : Store) (held : Held) (ctx : Context) :
    s.LosesOnly (s.letGo held ctx.refs) held ctx := by
  refine ⟨next_letGo s held ctx.refs, fun id => ?_⟩
  rcases letGoUpTo_cases held s.objects.size ctx.refs s id with hsame | ⟨hg, ho, hheld, hlead⟩
  · exact .inl hsame
  · obtain ⟨root, hroot, hlead⟩ := hlead
    refine .inr ⟨hg, hheld, ?_, fun hs => ?_⟩
    · cases ctx with
      | none => cases hroot
      | some o =>
        obtain rfl := List.mem_singleton.mp hroot
        exact ⟨o, rfl, hlead⟩
    · exact (evolves_letGo hs held ctx.refs).sound.not_mem_valuesIn ho

end Store

/-! ### Runs -/

/-- The tasks with which a host starts a run: a call, an object with its constructor, one
command or several. -/
inductive Task.IsEntry : Task → Prop where
  | call {held : Held} {c : Call} : IsEntry (.call held c)
  | construct {held : Held} {type : ObjectType} {scope : Scope} :
      IsEntry (.construct held none type scope)
  | command {held : Held} {t : Thread} {ctx : Context} {c : Command} :
      IsEntry (.command held t ctx c)
  | commands {held : Held} {t : Thread} {ctx : Context} {cs : List Command} :
      IsEntry (.commands held t 0 ctx cs)

namespace Moment

/-- What becomes of a command that takes more than the capabilities `C`, when it has its turn. -/
structure TurnsAway (env : Env) (C : CapabilitySet) (m : Moment) (held : Held) (t : Thread)
    (ctx : Context) (c : Command) (missing : List String) : Prop where
  /-- What is missing is what the command takes and is not in `C`. -/
  mem_iff : ∀ x, x ∈ missing ↔ x ∈ c.requires ∧ x ∉ C
  ne_nil : missing ≠ []
  /-- It is in ascending order, and each once. -/
  ascending : missing.Pairwise (· < ·)
  /-- The command has no effect. -/
  execute : env.execute held t ctx c m.store =
    (.error (.capabilityDenied c.action.label missing), m.store)
  /-- Nothing is dispatched any more. -/
  last : ∀ m', Passes env m m' →
    m' = m ∨ m'.task = .done (.error (.capabilityDenied c.action.label missing))
  /-- The run ends with the error, and nothing changes but that its threads are left. -/
  comesTo_iff : ∀ out, m.ComesTo env out ↔
    out = (.error (.capabilityDenied c.action.label missing),
      m.threads.foldl (fun s t => t.leave s) m.store)

theorem turnsAway {env : Env} {m : Moment} {held : Held} {t : Thread} {ctx : Context}
    {c : Command} (htask : m.task = .command held t ctx c)
    (hgate : t.scope.capabilities.isSuperset c.requires = false) :
    m.TurnsAway env t.scope.capabilities held t ctx c
      (t.scope.capabilities.missing c.requires) where
  mem_iff _ := CapabilitySet.mem_missing
  ne_nil hnil := by
    rw [CapabilitySet.missing_eq_nil_iff, hgate] at hnil
    cases hnil
  ascending := c.requires.ascending.filter _
  execute := by rw [Env.execute_eq, hgate, if_neg Bool.false_ne_true]
  last _ h := (Passes.undisturbed_of_denied h htask hgate).1
  comesTo_iff := comesTo_of_denied htask hgate

/-- **Capability confinement.**  At every moment of a run that was started with the capabilities
`C`, every thread that is alive holds exactly `C`, and a command that is dispatched takes nothing
that is not in `C`.  A command that takes more is turned away when it has its turn: it changes
nothing, save that its context is let go, and the run ends with the error.  So it is whoever is
cancelled in the course of the run; if nobody is, the error is what the run comes to. -/
theorem capability_confinement {env : Env} {start : Task} (hstart : start.IsEntry)
    {C : CapabilitySet} (hC : ∀ x ∈ start.scope?, x.capabilities = C) {s : Store} {m : Moment}
    (hm : Passes env ⟨start, [], s⟩ m) :
    (∀ t ∈ m.threads, t.scope.capabilities = C) ∧
    (∀ held t ctx c, m.task = .dispatched held t ctx c →
      t.scope.capabilities = C ∧ ∀ x ∈ c.requires, x ∈ C) ∧
    (∀ held t ctx c, m.task = .command held t ctx c → ¬ (∀ x ∈ c.requires, x ∈ C) →
      t.scope.capabilities = C ∧ ∃ missing, m.TurnsAway env C held t ctx c missing ∧
        m.store.LosesOnly (m.store.letGo held ctx.refs) held ctx ∧
        (Undisturbed env ⟨start, [], s⟩ m →
          start.outcome env s = (.error (.capabilityDenied c.action.label missing),
            m.threads.foldl (fun s t => t.leave s) m.store))) := by
  have hscopes : ∀ x ∈ m.scopes, x.capabilities = C := by
    refine hm.scopes (P := fun x => x.capabilities = C) (fun x hx => hx) ?_
    intro x hx
    exact hC x (by simpa using hx)
  have htask : ∀ {t : Thread}, m.task.scope? = some t.scope → t.scope.capabilities = C := by
    intro t ht
    exact hscopes t.scope (mem_scopes_of_task ht)
  refine ⟨fun t ht => hscopes _ (scope_mem_scopes ht), ?_, ?_⟩
  · intro held t ctx c hdispatched
    have ht : t.scope.capabilities = C := htask (by rw [hdispatched, Task.scope?])
    refine ⟨ht, ?_⟩
    rcases Relation.ReflTransGen.cases_tail hm with rfl | ⟨m₀, -, hmove⟩
    · -- no run starts with a command that is past the gate
      dsimp only at hdispatched
      subst hdispatched
      cases hstart
    · obtain ⟨cancelled, hnext⟩ := hmove
      rw [← ht]
      exact CapabilitySet.isSuperset_iff.mp (hnext.allowed hdispatched)
  · intro held t ctx c hturn hmore
    have ht : t.scope.capabilities = C := htask (by rw [hturn, Task.scope?])
    rw [← ht, ← CapabilitySet.isSuperset_iff, Bool.not_eq_true] at hmore
    refine ⟨ht, t.scope.capabilities.missing c.requires, ht ▸ turnsAway hturn hmore,
      Store.losesOnly_letGo _ _ _, fun hundisturbed => ?_⟩
    rw [← outcome_of_denied hturn hmore]
    exact hundisturbed.outcome_eq.symm

namespace Sample

/-- A script that does what its caller may do, and then wants more. -/
def greedy : Script :=
  .mk 0 ⟨"Greedy"⟩ [⟨"x", ⟨"Thing"⟩⟩] none
    [⟨.primitive .clear, .ofList ["read"]⟩,
      ⟨.primitive .self, .ofList ["write", "read", "log"]⟩] none

/-- A script that computes an argument and calls the other one with it. -/
def caller : Script :=
  .mk 1 ⟨"Caller"⟩ [] none
    [⟨.invoke [[⟨.primitive .clear, .ofList ["read"]⟩]] (.direct greedy), ∅⟩] none

def env : Env where
  limit := 2
  catalog := {}

def call : Call where
  script := caller
  scope := { capabilities := .ofList ["read"] }

end Sample

theorem capability_confinement_sample : ∃ missing,
    missing ≠ [] ∧ (∀ x, x ∈ missing ↔
      x ∈ CapabilitySet.ofList ["write", "read", "log"] ∧ x ∉ CapabilitySet.ofList ["read"]) ∧
    (Sample.env.run ∅ Sample.call {}).1 = .error (.capabilityDenied "SelfReference" missing) := by
  -- the caller begins, computes the argument and calls
  have hcall : Undisturbed Sample.env ⟨.call ∅ Sample.call, [], {}⟩ _ :=
    .head (.entered (by decide) rfl) <| .head (.turn rfl) <| .head (.dispatch (by decide)) <|
    .head (.prepare rfl rfl) <| .head .input <| .head (.turn rfl) <|
    .head (.dispatch (by decide)) <| .head (.performed rfl rfl) <| .head .resume <|
    .head .finished <| .head .resume <| .single .invoke
  -- the callee begins and does the first of its commands
  have hturn : Undisturbed Sample.env ⟨.call ∅ Sample.call, [], {}⟩ _ :=
    hcall.trans <| .head (.entered (by decide) rfl) <| .head (.turn rfl) <|
    .head (.dispatch (by decide)) <| .head (.performed rfl rfl) <| .head .resume <|
    .single (.turn rfl)
  obtain ⟨-, missing, hmissing, -, hrun⟩ :=
    (capability_confinement .call (C := .ofList ["read"]) (by simp [Sample.call]) hturn.passes).2.2
      _ _ _ _ rfl (by decide)
  exact ⟨missing, hmissing.ne_nil, hmissing.mem_iff, congrArg Prod.fst (hrun hturn)⟩

end Moment

end Steward

/-
Private fields: what an object keeps to itself makes no difference to others.

Two stores are compared that differ in the private fields of one object `o` alone.  A thread that
was not called on `o`, and does not see its fields in any other way, comes upon `o` again and
again, through variables, through fields of other objects and in circles; but each time it gets
no further than the public fields.

* **`Thread.Beside`** — what the thread relies on in one store, which its commands keep;
* **`Thread.Beside.perform_cases`** — all that a primitive action can do to a store, none of
  which touches a private field of `o`;
* **`Thread.Beside.perform_alike`** — a primitive action comes to the same in both stores;
* **`alike_runCommands`** — so do commands, by what one action does;
* **`private_noninterference`** — the result, for any commands made of primitive actions.

Design notes: that a reference is to `o` is decided by its number, so it matters that every
object of that number is `o` (`Beside.only`).
-/
import Steward.Proofs.AlikeStores
import Steward.Proofs.SoundSession

namespace Steward

/-! ### A thread next to an object -/

namespace Thread

/-- What a thread, with its references `held`, relies on while it works next to an object `o`:
its groups stay, its invoker is there, and no other object has the number of `o`. -/
structure Beside (t : Thread) (held : Held) (o : ObjectRef) (s : Store) : Prop where
  sound : s.Sound
  housed : s.Housed
  known : o.group < s.next
  only : ∀ {v}, s.Has v → v.group = o.group → v = o
  secured : ∀ id ∈ t.view.links, s.Secured held id
  invoker : s.HasContext t.invoker

variable {t : Thread} {held : Held} {o : ObjectRef} {s s' s₁ s₂ : Store}

theorem isInvoker_eq_false (apart : o.group ∉ t.view.links) {v : ObjectRef}
    (hv : v.group = o.group) : t.isInvoker v = false := by
  rw [Bool.eq_false_iff, ne_eq, isInvoker, Option.any_eq_true]
  rintro ⟨i, hi, hsame⟩
  refine apart ?_
  have hgroup : i.group = o.group := (beq_iff_eq.mp hsame).trans hv
  simp [View.links, view, hi, hgroup]

theorem Beside.evolves (h : t.Beside held o s) (hev : s.Evolves (· ∈ held) s')
    (hheld : ∀ v, t.invoker = some v → v.group ∈ held)
    (stays : ∀ id, s.objectAt? id = none → s.isLive id = true → s'.isLive id = true) :
    t.Beside held o s' where
  sound := hev.sound
  housed := hev.housed h.housed
  known := Nat.lt_of_lt_of_le h.known hev.next_le
  only {v} hv hgroup := by
    obtain ⟨p, hp⟩ := hv
    obtain ⟨p', hp'⟩ := hev.object_old (hgroup ▸ h.known) hp
    exact h.only ⟨p', hp'⟩ hgroup
  secured id hid := (h.secured id hid).evolves h.sound h.housed hev (stays id)
  invoker := hev.hasContext h.invoker hheld

section Apart

variable (names : (o.type.keys.map Key.name).Nodup) (apart : o.group ∉ t.view.links)

include names apart

/-- A member that a thread gets at is no private field of `o`. -/
theorem Beside.shown (h : t.Beside held o s) {v : ObjectRef} (hv : s.Has v) {name : String}
    {key : Key} (hkey : v.memberKey name (t.isInvoker v) = .ok key) :
    o.hides v.group key = false := by
  by_cases hgroup : v.group = o.group
  · obtain rfl := h.only hv hgroup
    rw [ObjectRef.memberKey, isInvoker_eq_false apart rfl] at hkey
    have hpublic : key ∈ v.type.publicKeys := by
      rw [ObjectType.property?] at hkey
      split at hkey
      · rename_i hproperty
        split at hproperty
        · rename_i hfind
          cases hkey
          cases hproperty
          exact List.mem_of_find?_eq_some hfind
        · cases hproperty
      · cases hkey
    rw [ObjectType.keys, List.map_append, List.nodup_append] at names
    rw [ObjectRef.hides, Bool.and_eq_false_iff]
    right
    rw [Bool.eq_false_iff, ne_eq, List.contains_iff_mem]
    intro hprivate
    exact names.2.2 _ (List.mem_map_of_mem hpublic) _ (List.mem_map_of_mem hprivate) rfl
  · exact ObjectRef.hides_of_ne hgroup key

/-! ### One store -/

/-- An assignment sets one slot, which is no private field of `o`. -/
theorem Beside.assign_cases (h : t.Beside held o s) {target : List String}
    {value replaced : Context} (hassign : t.assign s target value = .ok (replaced, s')) :
    ∃ id key, o.hides id key = false ∧ s.set id key value = .ok (replaced, s') := by
  rw [assign] at hassign
  split at hassign
  · cases hassign
  · split at hassign
    · obtain ⟨key, -, hassign⟩ := bind_eq_ok_iff.mp hassign
      obtain ⟨id, hid, hset⟩ := View.set_links hassign
      refine ⟨id, key, ObjectRef.hides_of_ne ?_ key, hset⟩
      rintro rfl
      exact apart hid
    · obtain ⟨owner, hlookup, hassign⟩ := bind_eq_ok_iff.mp hassign
      cases owner with
      | none => cases hassign
      | some v =>
        obtain ⟨key, hkey, hassign⟩ := bind_eq_ok_iff.mp hassign
        have hv := hasContext_lookup h.sound t s.hasContext_none hlookup v rfl
        exact ⟨v.group, key, h.shown names apart hv hkey, hassign⟩

/-- What a primitive action can do to a store: nothing, one new variable, one write to what is
no private field of `o`, or one new object. -/
theorem Beside.perform_cases (h : t.Beside held o s) {ctx : Context} {p : Primitive}
    {r : Except Error (Context × Context)} (hp : t.perform s ctx p = (r, s')) :
    s' = s ∨ (∃ key added, s.add t.locals key none = .ok (added, s')) ∨
      (∃ id key old, o.hides id key = false ∧ s.set id key ctx = .ok (old, s')) ∨
      ∃ type value, s' = (s.bind type value).2 := by
  cases p with
  | declare name type =>
    rw [perform] at hp
    split at hp
    · rename_i hadd
      cases hp
      rcases View.add_target hadd with rfl | ⟨id, htarget, hadd⟩
      · exact .inl rfl
      · cases htarget
        exact .inr (.inl ⟨_, _, hadd⟩)
    · cases hp
      exact .inl rfl
  | assign target =>
    rw [perform] at hp
    split at hp
    · rename_i hassign
      cases hp
      obtain ⟨id, key, hshown, hset⟩ := h.assign_cases names apart hassign
      exact .inr (.inr (.inl ⟨id, key, _, hshown, hset⟩))
    · cases hp
      exact .inl rfl
  | lookup path =>
    rw [perform] at hp
    split at hp
    · cases hp
      exact .inl rfl
    · cases hp
      exact .inl rfl
  | native type value =>
    refine .inr (.inr (.inr ⟨type, value, ?_⟩))
    rw [perform] at hp
    split at hp
    · rename_i heq
      cases hp
      rw [heq]
    · rename_i heq
      cases hp
      rw [heq]
  | self =>
    cases hp
    exact .inl rfl
  | clear =>
    cases hp
    exact .inl rfl

/-- Live groups stay, and `o` keeps its private fields. -/
theorem Beside.perform (h : t.Beside held o s) {ctx : Context} {p : Primitive}
    {r : Except Error (Context × Context)} (hp : t.perform s ctx p = (r, s')) :
    (∀ id, s.isLive id = true → s'.isLive id = true) ∧ s.Untouched o s' := by
  have hlive : ∀ {id g}, (∀ i, id ≠ i → s'.group? i = s.group? i) → s'.group? id = some g →
      ∀ i, s.isLive i = true → s'.isLive i = true := by
    intro id g hother hg i hi
    by_cases heq : id = i
    · exact Store.isLive_iff.mpr ⟨g, heq ▸ hg⟩
    · rw [Store.isLive_iff, hother i heq]
      exact Store.isLive_iff.mp hi
  rcases h.perform_cases names apart hp with
    rfl | ⟨key, added, hadd⟩ | ⟨id, key, old, hshown, hset⟩ | ⟨type, value, rfl⟩
  · exact ⟨fun _ hid => hid, .refl o s'⟩
  · have hne : t.locals ≠ o.group := fun he => apart (by simp [View.links, view, he])
    refine ⟨?_, Store.untouched_add hne hadd⟩
    obtain ⟨g, g', -, -, rfl⟩ := Store.add_cases hadd
    exact hlive (fun i hi => by rw [Store.group?_write, if_neg hi])
      (by rw [Store.group?_write, if_pos rfl])
  · refine ⟨?_, Store.untouched_set hshown hset⟩
    obtain ⟨g, g', -, -, rfl⟩ := Store.set_cases hset
    exact hlive (fun i hi => by rw [Store.group?_write, if_neg hi])
      (by rw [Store.group?_write, if_pos rfl])
  · refine ⟨fun id hid => ?_, Store.untouched_of_group_eq (Store.group?_bind h.known type value)⟩
    obtain ⟨g, hg⟩ := Store.isLive_iff.mp hid
    exact Store.isLive_iff.mpr ⟨g, (Store.group?_bind (h.sound.group_lt hg) type value).trans hg⟩

/-! ### Two stores -/

section Two

variable (h₁ : t.Beside held o s₁) (h₂ : t.Beside held o s₂) (alike : Store.Alike o s₁ s₂)

include h₁ h₂ alike

omit names in
theorem Beside.links_eq : ∀ id ∈ t.view.links, s₁.group? id = s₂.group? id := by
  intro id hid
  refine alike.group_eq ?_ (h₁.secured id hid).1 (h₂.secured id hid).1
  rintro rfl
  exact apart hid

omit names in
theorem Beside.keyOf_eq (name : String) : t.keyOf s₁ name = t.keyOf s₂ name := by
  rw [keyOf, keyOf, View.findKey?_congr (h₁.links_eq apart h₂ alike)]

theorem Beside.follow_eq (path : List String) {current : Context}
    (hcur₁ : s₁.HasContext current) (hcur₂ : s₂.HasContext current) (fields : List String) :
    t.follow s₁ path current fields = t.follow s₂ path current fields := by
  induction fields generalizing current with
  | nil => rfl
  | cons field fields ih =>
    cases current with
    | none => rfl
    | some v =>
      rw [follow, follow]
      cases hkey : v.memberKey field (t.isInvoker v) with
      | error e => rfl
      | ok key =>
        obtain ⟨p₁, hv₁⟩ := hcur₁ v rfl
        obtain ⟨p₂, hv₂⟩ := hcur₂ v rfl
        have hread : s₁.readMember v key = s₂.readMember v key :=
          alike.get_eq (Store.isLive_iff.mpr (h₁.housed hv₁)) (Store.isLive_iff.mpr (h₂.housed hv₂))
            (h₁.shown names apart ⟨p₁, hv₁⟩ hkey)
        dsimp only
        rw [hread]
        cases hnext : s₂.readMember v key with
        | error e => rfl
        | ok next =>
          refine ih ?_ ?_
          · rintro w rfl
            exact h₁.sound.has_of_get (hread.trans hnext)
          · rintro w rfl
            exact h₂.sound.has_of_get hnext

theorem Beside.lookup_eq (path : List String) {ctx : Context}
    (hctx₁ : s₁.HasContext ctx) (hctx₂ : s₂.HasContext ctx) :
    t.lookup s₁ path ctx = t.lookup s₂ path ctx := by
  cases ctx with
  | some v => exact h₁.follow_eq names apart h₂ alike path hctx₁ hctx₂ path
  | none =>
    cases path with
    | nil => rfl
    | cons first fields =>
      rw [lookup, lookup, h₁.keyOf_eq apart h₂ alike]
      cases t.keyOf s₂ first with
      | error e => rfl
      | ok key =>
        change (t.view.get s₁ key >>= fun v => t.follow s₁ (first :: fields) v fields) =
          t.view.get s₂ key >>= fun v => t.follow s₂ (first :: fields) v fields
        have hget := View.get_congr (h₁.links_eq apart h₂ alike) key
        rw [hget]
        cases hvalue : t.view.get s₂ key with
        | error e => rfl
        | ok value =>
          refine h₁.follow_eq names apart h₂ alike _ ?_ ?_ fields
          · rintro w rfl
            obtain ⟨id, hid⟩ := View.get_cases (hget.trans hvalue)
            exact h₁.sound.has_of_get hid
          · rintro w rfl
            obtain ⟨id, hid⟩ := View.get_cases hvalue
            exact h₂.sound.has_of_get hid

omit names in
theorem Beside.view_set (key : Key) (value : Option ObjectRef) :
    Store.Tied (Store.Alike o) (t.view.set s₁ key value) (t.view.set s₂ key value) := by
  rw [View.set, View.set, View.owner?, View.owner?,
    View.firstWith_congr (h₁.links_eq apart h₂ alike)]
  cases howner : View.firstWith s₂ (·.hasKey key) t.view.links with
  | error e => exact .error e
  | ok owner =>
    cases owner with
    | none => exact .error _
    | some id =>
      have hid := View.mem_of_firstWith howner
      refine alike.set (h₁.secured id hid).1 (h₂.secured id hid).1
        (ObjectRef.hides_of_ne ?_ key) value
      rintro rfl
      exact apart hid

omit names in
theorem Beside.view_add (key : Key) (value : Option ObjectRef) :
    Store.Tied (Store.Alike o) (t.view.add s₁ key value) (t.view.add s₂ key value) := by
  have hmem : t.locals ∈ t.view.links := by simp [View.links, view]
  change Store.Tied _ (View.firstWith s₁ (·.hasName key.name) t.view.links >>= _)
    (View.firstWith s₂ (·.hasName key.name) t.view.links >>= _)
  rw [View.firstWith_congr (h₁.links_eq apart h₂ alike)]
  cases View.firstWith s₂ (·.hasName key.name) t.view.links with
  | error e => exact .error e
  | ok owner =>
    cases owner with
    | some id => exact .ok alike
    | none =>
      refine alike.add ?_ (h₁.secured _ hmem).1 (h₂.secured _ hmem).1 key value
      intro he
      exact apart (he ▸ hmem)

theorem Beside.assign (target : List String) (value : Context) :
    Store.Tied (Store.Alike o) (t.assign s₁ target value) (t.assign s₂ target value) := by
  rw [Thread.assign, Thread.assign]
  split
  · exact .error _
  · rename_i field _
    split
    · rw [h₁.keyOf_eq apart h₂ alike]
      cases t.keyOf s₂ field with
      | error e => exact .error e
      | ok key => exact h₁.view_set apart h₂ alike key value
    · rename_i path _
      have hlookup := h₁.lookup_eq names apart h₂ alike target.dropLast s₁.hasContext_none
        s₂.hasContext_none
      rw [hlookup]
      cases howner : t.lookup s₂ target.dropLast none with
      | error e => exact .error e
      | ok owner =>
        cases owner with
        | none => exact .error _
        | some v =>
          change Store.Tied _ (v.memberKey field (t.isInvoker v) >>= _)
            (v.memberKey field (t.isInvoker v) >>= _)
          cases hkey : v.memberKey field (t.isInvoker v) with
          | error e => exact .error e
          | ok key =>
            obtain ⟨p₁, hv₁⟩ :=
              hasContext_lookup h₁.sound t s₁.hasContext_none (hlookup.trans howner) v rfl
            obtain ⟨p₂, hv₂⟩ := hasContext_lookup h₂.sound t s₂.hasContext_none howner v rfl
            exact alike.set (Store.isLive_iff.mpr (h₁.housed hv₁))
              (Store.isLive_iff.mpr (h₂.housed hv₂)) (h₁.shown names apart ⟨p₁, hv₁⟩ hkey) value

/-- **A primitive action comes to the same** in both stores. -/
theorem Beside.perform_alike {ctx : Context} (hctx₁ : s₁.HasContext ctx)
    (hctx₂ : s₂.HasContext ctx) (p : Primitive) :
    (t.perform s₁ ctx p).1 = (t.perform s₂ ctx p).1 ∧
      Store.Alike o (t.perform s₁ ctx p).2 (t.perform s₂ ctx p).2 := by
  cases p with
  | declare name type =>
    rw [Thread.perform, Thread.perform]
    have hadd := h₁.view_add apart h₂ alike ⟨name, type⟩ none
    generalize t.view.add s₁ ⟨name, type⟩ none = r₁ at hadd
    generalize t.view.add s₂ ⟨name, type⟩ none = r₂ at hadd
    cases hadd with
    | ok h => exact ⟨rfl, h⟩
    | error e => exact ⟨rfl, alike⟩
  | assign target =>
    rw [Thread.perform, Thread.perform]
    have hassign := h₁.assign names apart h₂ alike target ctx
    generalize t.assign s₁ target ctx = r₁ at hassign
    generalize t.assign s₂ target ctx = r₂ at hassign
    cases hassign with
    | ok h => exact ⟨rfl, h⟩
    | error e => exact ⟨rfl, alike⟩
  | lookup path =>
    rw [Thread.perform, Thread.perform, h₁.lookup_eq names apart h₂ alike path hctx₁ hctx₂]
    cases t.lookup s₂ path ctx with
    | ok next => exact ⟨rfl, alike⟩
    | error e => exact ⟨rfl, alike⟩
  | native type value =>
    obtain ⟨hresult, hstores⟩ := alike.bind type value
    rw [Thread.perform, Thread.perform]
    generalize s₁.bind type value = r₁ at hresult hstores
    generalize s₂.bind type value = r₂ at hresult hstores
    obtain ⟨x₁, t₁⟩ := r₁
    obtain ⟨x₂, t₂⟩ := r₂
    cases hresult
    cases x₁ with
    | ok v => exact ⟨rfl, hstores⟩
    | error e => exact ⟨rfl, hstores⟩
  | self => exact ⟨rfl, alike⟩
  | clear => exact ⟨rfl, alike⟩

end Two

end Apart

end Thread

/-! ### Commands -/

section Commands

variable {t : Thread} {held : Held} {o : ObjectRef} (env : Env) {ctx : Context} {s s₁ s₂ : Store}
  (names : (o.type.keys.map Key.name).Nodup) (apart : o.group ∉ t.view.links)
  (hheld : ∀ v, t.invoker = some v → v.group ∈ held)

include names apart

/-- A primitive action and what is let go after it. -/
theorem Thread.Beside.after_action (h : t.Beside held o s) (hctx : s.HasContext ctx) (call : Caller)
    (p : Primitive) :
    (∀ id, s.objectAt? id = none → s.isLive id = true →
      (runAction call env held t s ctx (.primitive p)).2.isLive id = true) ∧
    s.Untouched o (runAction call env held t s ctx (.primitive p)).2 := by
  have hlands : Lands (fun _ => True) s (fun s' next => s'.HasContext next.1)
      (t.perform s ctx p) := Thread.lands_perform h.sound h.invoker hctx p
  rw [runAction]
  split
  · rename_i next replaced s' hp
    obtain ⟨hlive, huntouched⟩ := h.perform names apart hp
    refine ⟨fun id hnone hid => ?_, huntouched.trans (Store.untouched_letGo o s' _ _)⟩
    obtain ⟨g, hg⟩ := Store.isLive_iff.mp hid
    have hspare : s.Spare id := ⟨h.sound.group_lt hg, hnone⟩
    rw [hp] at hlands
    rw [Store.isLive_iff, Store.group?_letGo_of_none (hlands.evolves.spare hspare).2]
    exact Store.isLive_iff.mp (hlive id hid)
  · rename_i e s' hp
    obtain ⟨hlive, huntouched⟩ := h.perform names apart hp
    exact ⟨fun id _ => hlive id, huntouched⟩

include hheld

/-- A primitive command keeps what the thread relies on, touches no private field of `o`, and
leaves a context that is there. -/
theorem Thread.Beside.after_command (h : t.Beside held o s) (hctx : s.HasContext ctx)
    {call : Caller} (hcall : call.Sound) {c : Command} (hc : ∃ p, c.action = .primitive p)
    {r : Except Error Context} {s' : Store} (hr : runCommand call env held t s ctx c = (r, s')) :
    t.Beside held o s' ∧ s.Untouched o s' ∧ ∀ next, r = .ok next → s'.HasContext next := by
  have hlands : Lands (· ∈ held) s Store.HasContext (runCommand call env held t s ctx c) :=
    lands_runCommand hcall h.sound h.invoker hheld hctx c
  rw [hr] at hlands
  obtain ⟨action, requires⟩ := c
  obtain ⟨p, rfl : action = .primitive p⟩ := hc
  rw [runCommand] at hr
  split at hr
  · obtain ⟨stays, huntouched⟩ := h.after_action env names apart hctx call p
    rw [hr] at stays huntouched
    exact ⟨h.evolves hlands.evolves hheld stays, huntouched, hlands.result⟩
  · cases hr
    exact ⟨h, .refl o s, hlands.result⟩

/-- Commands touch no private field of `o`. -/
theorem Thread.Beside.untouched_runCommands (h : t.Beside held o s) (hctx : s.HasContext ctx)
    {call : Caller} (hcall : call.Sound) (completed : Nat) {cs : List Command}
    (hcs : ∀ c ∈ cs, ∃ p, c.action = .primitive p) :
    s.Untouched o (runCommands call env held t s completed ctx cs).2 := by
  induction cs generalizing s ctx completed with
  | nil => exact .refl o s
  | cons c cs ih =>
    have hc := hcs c List.mem_cons_self
    rw [runCommands]
    split
    · exact .refl o s
    · split
      · rename_i heq
        exact (h.after_command env names apart hheld hctx hcall hc heq).2.1
      · rename_i next s' heq
        obtain ⟨hbeside, huntouched, hnext⟩ :=
          h.after_command env names apart hheld hctx hcall hc heq
        exact huntouched.trans (ih hbeside (hnext next rfl) (completed + 1)
          fun c hc => hcs c (List.mem_cons_of_mem _ hc))

omit hheld in
theorem alike_runCommand (h₁ : t.Beside held o s₁) (h₂ : t.Beside held o s₂)
    (alike : Store.Alike o s₁ s₂) (hctx₁ : s₁.HasContext ctx) (hctx₂ : s₂.HasContext ctx)
    (call : Caller) {c : Command} (hc : ∃ p, c.action = .primitive p) :
    (runCommand call env held t s₁ ctx c).1 = (runCommand call env held t s₂ ctx c).1 ∧
      Store.Alike o (runCommand call env held t s₁ ctx c).2
        (runCommand call env held t s₂ ctx c).2 := by
  obtain ⟨action, requires⟩ := c
  obtain ⟨p, rfl : action = .primitive p⟩ := hc
  by_cases hallowed : t.scope.capabilities.isSuperset requires = true
  · obtain ⟨hresult, hstores⟩ := h₁.perform_alike names apart h₂ alike hctx₁ hctx₂ p
    rw [runCommand, runCommand, if_pos hallowed, if_pos hallowed, runAction, runAction]
    generalize t.perform s₁ ctx p = r₁ at hresult hstores
    generalize t.perform s₂ ctx p = r₂ at hresult hstores
    obtain ⟨x₁, t₁⟩ := r₁
    obtain ⟨x₂, t₂⟩ := r₂
    cases hresult
    cases x₁ with
    | ok next => exact ⟨rfl, hstores.letGo _ _⟩
    | error e => exact ⟨rfl, hstores⟩
  · rw [runCommand, runCommand, if_neg hallowed, if_neg hallowed]
    exact ⟨rfl, alike⟩

/-- **Commands come to the same** in both stores. -/
theorem alike_runCommands (h₁ : t.Beside held o s₁) (h₂ : t.Beside held o s₂)
    (alike : Store.Alike o s₁ s₂) (hctx₁ : s₁.HasContext ctx) (hctx₂ : s₂.HasContext ctx)
    {call : Caller} (hcall : call.Sound) (completed : Nat) {cs : List Command}
    (hcs : ∀ c ∈ cs, ∃ p, c.action = .primitive p) :
    (runCommands call env held t s₁ completed ctx cs).1 =
        (runCommands call env held t s₂ completed ctx cs).1 ∧
      Store.Alike o (runCommands call env held t s₁ completed ctx cs).2
        (runCommands call env held t s₂ completed ctx cs).2 := by
  induction cs generalizing s₁ s₂ ctx completed with
  | nil => exact ⟨rfl, alike⟩
  | cons c cs ih =>
    rw [runCommands, runCommands]
    by_cases hcancelled : t.scope.isCancelled env.cancelled = true
    · rw [if_pos hcancelled, if_pos hcancelled]
      exact ⟨rfl, alike⟩
    · rw [if_neg hcancelled, if_neg hcancelled]
      have hc := hcs c List.mem_cons_self
      obtain ⟨hresult, hstores⟩ :=
        alike_runCommand env names apart h₁ h₂ alike hctx₁ hctx₂ call hc
      cases hr₁ : runCommand call env held t s₁ ctx c with | mk x₁ t₁
      cases hr₂ : runCommand call env held t s₂ ctx c with | mk x₂ t₂
      obtain ⟨hbeside₁, -, hnext₁⟩ := h₁.after_command env names apart hheld hctx₁ hcall hc hr₁
      obtain ⟨hbeside₂, -, hnext₂⟩ := h₂.after_command env names apart hheld hctx₂ hcall hc hr₂
      rw [hr₁, hr₂] at hresult hstores
      cases hresult
      cases x₁ with
      | error e => exact ⟨rfl, hstores⟩
      | ok next =>
        exact ih hbeside₁ hbeside₂ hstores (hnext₁ next rfl) (hnext₂ next rfl)
          (completed + 1) fun c hc => hcs c (List.mem_cons_of_mem _ hc)

end Commands

/-! ### The result -/

/-- **Private fields do not interfere.**  Take a thread whose groups are all live and stay so,
because they are not those of objects or because their objects are held, and an object `o` whose
group is not one of them, so that `o` is not the invoker either.  Take two sound stores that are
the same but for the private fields of `o`, and any commands made of primitive actions.  Then the
commands come to the same, be it a context or an error; in each store `o` still has its private
fields as they were, if it is still there; and every other slot of every group that is live in
both is the same in both. -/
theorem private_noninterference {env : Env} {held : Held} {t : Thread} {ctx : Context}
    {cs : List Command} {o : ObjectRef} {s₁ s₂ : Store} (sound₁ : s₁.Sound) (sound₂ : s₂.Sound)
    (housed : s₁.Housed) (ho : s₁.Has o) (names : (o.type.keys.map Key.name).Nodup)
    (same : Store.SameBut o s₁ s₂) (apart : o.group ∉ t.view.links)
    (secured : ∀ id ∈ t.view.links, s₁.Secured held id)
    (hinv : ∀ v, t.invoker = some v → s₁.Has v ∧ v.group ∈ held) (hctx : s₁.HasContext ctx)
    (hcs : ∀ c ∈ cs, ∃ p, c.action = .primitive p) :
    (env.executeAll held t ctx cs s₁).1 = (env.executeAll held t ctx cs s₂).1 ∧
    (∀ s ∈ [s₁, s₂], (env.executeAll held t ctx cs s).2.isLive o.group = true →
      ∀ p x, p.group = o.group → x.key ∈ o.type.privateKeys →
        ((env.executeAll held t ctx cs s).2.slotAt? p = some x ↔ s.slotAt? p = some x)) ∧
    ∀ p, (env.executeAll held t ctx cs s₁).2.isLive p.group = true →
      (env.executeAll held t ctx cs s₂).2.isLive p.group = true →
      ∀ x, o.hides p.group x.key = false →
        ((env.executeAll held t ctx cs s₁).2.slotAt? p = some x ↔
          (env.executeAll held t ctx cs s₂).2.slotAt? p = some x) := by
  have hhas : ∀ {v}, s₁.Has v ↔ s₂.Has v := by
    intro v
    rw [Store.Has, Store.Has, same.objects]
  have hcall : (env.below t).Sound := lands_callAt env _
  have hheld : ∀ v, t.invoker = some v → v.group ∈ held := fun v hv => (hinv v hv).2
  have beside₁ : t.Beside held o s₁ := by
    obtain ⟨p, hp⟩ := ho
    refine ⟨sound₁, housed, (sound₁.object_lt hp).2, ?_, secured, fun v hv => (hinv v hv).1⟩
    rintro v ⟨p', hp'⟩ hgroup
    rw [hgroup, hp] at hp'
    cases hp'
    rfl
  have beside₂ : t.Beside held o s₂ := by
    refine ⟨sound₂, ?_, same.next ▸ beside₁.known, fun hv => beside₁.only (hhas.mpr hv), ?_,
      fun v hv => hhas.mp (hinv v hv).1⟩
    · intro id w p hw
      rw [← same.objects] at hw
      exact Store.isLive_iff.mp (same.isLive (Store.isLive_iff.mpr (housed hw)))
    · intro id hid
      exact ⟨same.isLive (secured id hid).1, same.objects id ▸ (secured id hid).2⟩
  have hctx₂ : s₂.HasContext ctx := fun v hv => hhas.mp (hctx v hv)
  obtain ⟨hresult, hstores⟩ := alike_runCommands env names apart hheld beside₁ beside₂
    same.alike hctx hctx₂ hcall 0 hcs
  refine ⟨hresult, ?_, fun p live₁ live₂ x hx => hstores.slotAt?_iff live₁ live₂ hx⟩
  intro s hs live p x hp hx
  rcases List.mem_pair.mp hs with rfl | rfl
  · have huntouched := beside₁.untouched_runCommands env names apart hheld hctx hcall 0 hcs
    exact huntouched.slotAt?_iff live hp hx
  · have huntouched := beside₂.untouched_runCommands env names apart hheld hctx₂ hcall 0 hcs
    exact huntouched.slotAt?_iff live hp hx

namespace Vault

def next : Key := ⟨"next", ⟨"Safe"⟩⟩

def secret : Key := ⟨"secret", ⟨"Safe"⟩⟩

def safe : ObjectType := ⟨0, ⟨"Safe"⟩, none, [], [next], [secret], none, none⟩

/-- Two safes that lead to each other, and a thread at work on the second one. -/
def steps : List Step := [
  .definition (.type "Safe" [("next", "Safe")] [("secret", "Safe")] [] none none none "safe"),
  .object (.instantiate "safe" "a"),
  .object (.instantiate "safe" "b"),
  .object (.write (some "b") "a" "next" false),
  .object (.write (some "a") "b" "next" false),
  .call (.script "Walk" [] none [] none none "walk"),
  .call (.enter { script := "walk", invoker := some "b" } {} "t")]

def session : Session :=
  ((Session.start {}).steps steps).2

def walker : Thread where
  script := .mk 1 ⟨"Walk"⟩ [] none [] none
  invoker := some ⟨safe, 2⟩
  scope := {}
  inputs := 3
  locals := 4

/-- The same memory with something in the secret of the first safe. -/
def filled : Store :=
  session.store.write 1 ⟨.fields, [⟨next, some ⟨safe, 2⟩⟩, ⟨secret, some ⟨safe, 2⟩⟩]⟩

/-- The thread goes to the first safe, keeps it in a variable and goes on from there, until it
asks for the secret. -/
def commands : List Command := [
  .mk (.primitive (.declare "v" ⟨"Safe"⟩)) {},
  .mk (.primitive .self) {},
  .mk (.primitive (.lookup ["next"])) {},
  .mk (.primitive (.assign ["v"])) {},
  .mk (.primitive (.assign ["v", "next"])) {},
  .mk (.primitive .clear) {},
  .mk (.primitive (.lookup ["v", "next", "next"])) {},
  .mk (.primitive (.lookup ["secret"])) {}]

theorem filled_eq : session.store.set 1 secret (some ⟨safe, 2⟩) = .ok (none, filled) := by
  have hg : session.store.group? 1 =
    some ⟨.fields, [⟨next, some ⟨safe, 2⟩⟩, ⟨secret, none⟩]⟩ := rfl
  rw [Store.set, Store.read_eq_ok_iff.mpr hg]
  rfl

end Vault

open Vault in
theorem private_noninterference_vault :
    session.store.valuesIn 1 ≠ filled.valuesIn 1 ∧
    (session.env.executeAll session.held walker none commands session.store).1 =
      (session.env.executeAll session.held walker none commands filled).1 := by
  have reachable : session.Reachable := Session.reachable_steps {} steps
  have sound := reachable.sound
  have has : ∀ id ∈ [1, 2], session.store.Has ⟨safe, id⟩ := by
    intro id hid
    rcases List.mem_pair.mp hid with rfl | rfl
    · exact ⟨none, rfl⟩
    · exact ⟨none, rfl⟩
  refine ⟨by decide +kernel, (private_noninterference sound.store ?_ ?_ (o := ⟨safe, 1⟩)
    (has 1 (by simp)) (by decide) (Store.sameBut_set (by decide) filled_eq) ?_ ?_ ?_ ?_ ?_).1⟩
  · refine Store.sound_set sound.store ?_ filled_eq
    rintro v ⟨⟩
    exact has 2 (by simp)
  · exact sound.housed rfl
  · decide +kernel
  · intro id hid
    have hlinks : walker.view.links = [2, 3, 4] := rfl
    rw [hlinks] at hid
    simp only [List.mem_cons, List.not_mem_nil, or_false] at hid
    rcases hid with rfl | rfl | rfl
    · exact ⟨by decide +kernel, .inr (by decide +kernel)⟩
    · exact ⟨by decide +kernel, .inl rfl⟩
    · exact ⟨by decide +kernel, .inl rfl⟩
  · rintro v ⟨⟩
    exact ⟨has 2 (by simp), by decide +kernel⟩
  · exact Store.hasContext_none _
  · simp [commands, Command.action]

end Steward

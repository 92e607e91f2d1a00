/-
Cascades: what goes once references are dropped, in whatever order it goes.

A group that is released drops the references in its slots, one after the other.  An object goes
when the last reference to it is dropped, and its group is released in turn.  `Cascade.Next`
says what can happen next and leaves open what happens first: which group is released, which
object goes, which of the references that are about to be dropped is dropped.

* **`halts`** — no cascade goes on for ever;
* **`group?_eq`** — however it goes, what is left in the end is the same;
* **`Next.supported`** — because a set stays as a whole if each of its members is referred to
  from within, and objects in a circle are such a set;
* **`steps_tidy`**, **`over_tidy`** — what `Store.retain` and `Store.settle` do is a cascade, and
  it is over when they are done.

Design notes: a reference that is about to be dropped still counts.  So an object may go later
here than with `Store.letGo`, which takes all references of a released group away at once.
-/
import Mathlib.Data.Set.Basic
import Mathlib.Logic.Relation
import Steward.Proofs.SoundStore

namespace Steward

open Std (TreeMap TreeSet)

/-- A store in which references are being dropped. -/
structure Cascade where
  store : Store
  /-- The references that are about to be dropped. -/
  falling : List GroupId

namespace Cascade

/-- What can happen next, for the groups `owned` by someone and the references `held` outside the
store. -/
inductive Next (owned : List GroupId) (held : Held) : Cascade → Cascade → Prop where
  /-- A group that nobody owns is released. -/
  | group {s : Store} {falling : List GroupId} {id : GroupId} (live : s.isLive id = true)
      (unowned : id ∉ owned) (plain : id ∉ s.objects) :
      Next owned held ⟨s, falling⟩ ⟨s.release id, s.valuesIn id ++ falling⟩
  /-- An object goes that nothing refers to, and its group is released. -/
  | object {s : Store} {falling : List GroupId} {id : GroupId} (there : id ∈ s.objects)
      (free : id ∉ held) (unused : ∀ user, id ∉ s.valuesIn user) (dropped : id ∉ falling) :
      Next owned held ⟨s, falling⟩ ⟨s.discard id, s.valuesIn id ++ falling⟩
  /-- A reference is dropped. -/
  | drop {s : Store} {before after : List GroupId} {id : GroupId} :
      Next owned held ⟨s, before ++ id :: after⟩ ⟨s, before ++ after⟩

/-- What can happen in any number of steps. -/
def Steps (owned : List GroupId) (held : Held) : Cascade → Cascade → Prop :=
  Relation.ReflTransGen (Next owned held)

/-- Whether nothing can happen any more. -/
def Over (owned : List GroupId) (held : Held) (c : Cascade) : Prop :=
  ∀ c', ¬ Next owned held c c'

/-- Whether a cascade can come to an end in this way. -/
def Ends (owned : List GroupId) (held : Held) (c c' : Cascade) : Prop :=
  Steps owned held c c' ∧ Over owned held c'

variable {owned : List GroupId} {held : Held} {c c' c₁ c₂ : Cascade}

/-! ### Every cascade ends -/

theorem size_release_lt {s : Store} {id : GroupId} (h : s.isLive id = true) :
    (s.release id).groups.size < s.groups.size := by
  have hpos : s.groups.size ≠ 0 := fun h0 => by
    have hempty := TreeMap.isEmpty_eq_size_eq_zero (t := s.groups)
    simp_all [TreeMap.isEmpty_iff_forall_not_mem, Store.isLive]
  have hmem : s.groups.contains id = true := h
  rw [Store.release, TreeMap.size_erase, if_pos hmem]
  exact Nat.sub_one_lt hpos

/-- How many groups and objects there are, and how many references are about to be dropped. -/
def size (c : Cascade) : Nat × Nat :=
  (c.store.groups.size + c.store.objects.size, c.falling.length)

theorem Next.size_lt (h : Next owned held c c') :
    Prod.Lex (· < ·) (· < ·) c'.size c.size := by
  cases h with
  | @group s falling id live unowned plain =>
    have hgroups := size_release_lt live
    have hobjects : (s.release id).objects.size = s.objects.size := Store.size_removeUser ..
    exact .left _ _ (Nat.add_lt_add_of_lt_of_le hgroups hobjects.le)
  | @object s falling id there free unused dropped =>
    have hgroups : (s.discard id).groups.size ≤ s.groups.size := TreeMap.size_erase_le
    exact .left _ _ (Nat.add_lt_add_of_le_of_lt hgroups (Store.size_discard_lt there))
  | drop => exact .right _ (by simp)

/-- **No cascade goes on for ever.** -/
theorem halts (owned : List GroupId) (held : Held) (c : Cascade) :
    Acc (fun c' c => Next owned held c c') c := by
  have hwf : WellFounded (Prod.Lex (· < ·) (· < ·) : Nat × Nat → Nat × Nat → Prop) :=
    (Prod.lex Nat.lt_wfRel Nat.lt_wfRel).wf
  have hsub : Subrelation (fun c' c => Next owned held c c')
      (InvImage (Prod.Lex (· < ·) (· < ·)) size) := fun h => h.size_lt
  exact (hsub.wf (InvImage.wf size hwf)).apply c

/-! ### What a cascade leaves -/

/-- Whether a store comes of another one by groups and objects going, an object never without
its group. -/
structure Shrinks (s s' : Store) : Prop where
  group : ∀ {id g}, s'.group? id = some g → s.group? id = some g
  object : ∀ {id}, id ∈ s'.objects → id ∈ s.objects
  together : ∀ {id g}, s'.group? id = some g → id ∈ s.objects → id ∈ s'.objects

theorem Next.shrinks (h : Next owned held c c') : Shrinks c.store c'.store := by
  cases h with
  | group live unowned plain =>
    exact ⟨Store.group?_of_release, Store.mem_removeUser.mp, fun _ => Store.mem_removeUser.mpr⟩
  | object there free unused dropped =>
    refine ⟨Store.group?_of_release, fun hid => (Store.mem_discard.mp hid).2, ?_⟩
    intro other g hg hother
    refine Store.mem_discard.mpr ⟨?_, hother⟩
    rintro rfl
    rw [Store.group?_discard, if_pos rfl] at hg
    cases hg
  | drop => exact ⟨id, id, fun _ => id⟩

theorem Steps.shrinks (h : Steps owned held c c') : Shrinks c.store c'.store := by
  induction h with
  | refl => exact ⟨id, id, fun _ => id⟩
  | tail _ hnext ih =>
    have hshrinks := hnext.shrinks
    exact ⟨fun hg => ih.group (hshrinks.group hg), fun hid => ih.object (hshrinks.object hid),
      fun hg hid => hshrinks.together hg (ih.together (hshrinks.group hg) hid)⟩

/-- Whether every member of a set is an object that is held or referred to from within the set,
or else a group that somebody owns. -/
def Supported (owned : List GroupId) (held : Held) (s : Store) (C : Set GroupId) : Prop :=
  ∀ id ∈ C, (id ∈ s.objects ∧ (id ∈ held ∨ ∃ user ∈ C, id ∈ s.valuesIn user)) ∨
    (id ∉ s.objects ∧ id ∈ owned)

variable {C : Set GroupId}

/-- **What is supported stays**, together with what supports it. -/
theorem Next.supported (h : Next owned held c c') (hC : Supported owned held c.store C) :
    Supported owned held c'.store C ∧ ∀ id ∈ C, c'.store.group? id = c.store.group? id := by
  -- what goes is not in the set, and nothing else is touched
  have hsame : ∀ id ∈ C, c'.store.group? id = c.store.group? id ∧
      (id ∈ c'.store.objects ↔ id ∈ c.store.objects) := by
    cases h with
    | @group s falling gone live unowned plain =>
      intro id hid
      have hne : gone ≠ id := by
        rintro rfl
        rcases hC gone hid with ⟨hobject, -⟩ | ⟨-, howned⟩
        · exact plain hobject
        · exact unowned howned
      exact ⟨by rw [Store.group?_release, if_neg hne], Store.mem_removeUser⟩
    | @object s falling gone there free unused dropped =>
      intro id hid
      have hne : gone ≠ id := by
        rintro rfl
        rcases hC gone hid with ⟨-, hheld | ⟨user, -, huser⟩⟩ | ⟨hobject, -⟩
        · exact free hheld
        · exact unused user huser
        · exact hobject there
      refine ⟨by rw [Store.group?_discard, if_neg hne], ?_⟩
      rw [Store.mem_discard]
      exact and_iff_right hne
    | drop => exact fun id _ => ⟨rfl, Iff.rfl⟩
  refine ⟨?_, fun id hid => (hsame id hid).1⟩
  intro id hid
  rw [(hsame id hid).2]
  refine (hC id hid).imp_left (And.imp_right (Or.imp_right ?_))
  rintro ⟨user, huser, hvalue⟩
  refine ⟨user, huser, ?_⟩
  rwa [Store.valuesIn, (hsame user huser).1]

theorem Steps.supported (h : Steps owned held c c') (hC : Supported owned held c.store C) :
    Supported owned held c'.store C ∧ ∀ id ∈ C, c'.store.group? id = c.store.group? id := by
  induction h with
  | refl => exact ⟨hC, fun _ _ => rfl⟩
  | tail _ hnext ih =>
    obtain ⟨hC', hsame⟩ := ih
    obtain ⟨hC'', hsame'⟩ := hnext.supported hC'
    exact ⟨hC'', fun id hid => (hsame' id hid).trans (hsame id hid)⟩

/-- The groups and objects of a store. -/
def present (s : Store) : Set GroupId :=
  {id | s.isLive id = true ∨ id ∈ s.objects}

/-- A group with a value in a slot is live. -/
theorem exists_group?_of_valuesIn {s : Store} {id user : GroupId} (h : id ∈ s.valuesIn user) :
    ∃ g, s.group? user = some g ∧ id ∈ g.refs := by
  rw [Store.valuesIn] at h
  cases hg : s.group? user with
  | none => simp [hg] at h
  | some g => exact ⟨g, rfl, by simpa [hg] using h⟩

/-- When a cascade is over, everything that is left has a reason to be. -/
theorem Over.supported (h : Over owned held c) :
    Supported owned held c.store (present c.store) := by
  obtain ⟨s, falling⟩ := c
  have hnil : falling = [] := by
    cases falling with
    | nil => rfl
    | cons id rest =>
      have hdrop : Next owned held ⟨s, [] ++ id :: rest⟩ ⟨s, [] ++ rest⟩ := .drop
      exact absurd hdrop (h _)
  subst hnil
  intro id hid
  by_cases hobject : id ∈ s.objects
  · refine .inl ⟨hobject, ?_⟩
    by_contra hnone
    rw [not_or, not_exists] at hnone
    refine h _ (.object hobject hnone.1 ?_ List.not_mem_nil)
    intro user huser
    obtain ⟨g, hg, -⟩ := exists_group?_of_valuesIn huser
    exact hnone.2 user ⟨.inl (Store.isLive_iff.mpr ⟨g, hg⟩), huser⟩
  · refine .inr ⟨hobject, ?_⟩
    by_contra hunowned
    exact h _ (.group (hid.resolve_right hobject) hunowned hobject)

/-- What is left in the end had a reason to stay in the beginning. -/
theorem Ends.supported (h : Ends owned held c c') :
    Supported owned held c.store (present c'.store) := by
  intro id hid
  have hshrinks := h.1.shrinks
  refine (h.2.supported id hid).imp ?_ ?_
  · rintro ⟨hobject, hreason⟩
    refine ⟨hshrinks.object hobject, hreason.imp_right ?_⟩
    rintro ⟨user, huser, hvalue⟩
    obtain ⟨g, hg, hvalue⟩ := exists_group?_of_valuesIn hvalue
    refine ⟨user, huser, ?_⟩
    rw [Store.valuesIn, hshrinks.group hg]
    exact hvalue
  · rintro ⟨hobject, howned⟩
    obtain ⟨g, hg⟩ := Store.isLive_iff.mp (hid.resolve_right hobject)
    exact ⟨fun hold => hobject (hshrinks.together hg hold), howned⟩

theorem Ends.group?_of_steps (h₁ : Ends owned held c c₁) (h₂ : Steps owned held c c₂)
    {id : GroupId} {g : Group} (hg : c₁.store.group? id = some g) :
    c₂.store.group? id = some g := by
  have hmem : id ∈ present c₁.store := .inl (Store.isLive_iff.mpr ⟨g, hg⟩)
  rw [(h₂.supported h₁.supported).2 id hmem]
  exact h₁.1.shrinks.group hg

/-- **The order does not matter.**  Two cascades that begin alike leave the same groups, with the
same slots. -/
theorem group?_eq (h₁ : Ends owned held c c₁) (h₂ : Ends owned held c c₂) (id : GroupId) :
    c₁.store.group? id = c₂.store.group? id := by
  ext g
  exact ⟨h₁.group?_of_steps h₂.1, h₂.group?_of_steps h₁.1⟩

/-! ### Tidying up is a cascade -/

theorem steps_drop (s : Store) (falling : List GroupId) :
    Steps owned held ⟨s, falling⟩ ⟨s, []⟩ := by
  induction falling with
  | nil => exact .refl
  | cons id rest ih =>
    have hdrop : Next owned held ⟨s, [] ++ id :: rest⟩ ⟨s, [] ++ rest⟩ := .drop
    exact .head hdrop ih

theorem steps_release {s : Store} {ids : List GroupId} (nodup : ids.Nodup)
    (live : ∀ id ∈ ids, s.isLive id = true) (unowned : ∀ id ∈ ids, id ∉ owned)
    (plain : ∀ id ∈ ids, id ∉ s.objects) :
    Steps owned held ⟨s, []⟩ ⟨ids.foldl Store.release s, []⟩ := by
  induction ids generalizing s with
  | nil => exact .refl
  | cons id ids ih =>
    obtain ⟨hnot, nodup⟩ := List.nodup_cons.mp nodup
    have hfirst : Next owned held ⟨s, []⟩ ⟨s.release id, s.valuesIn id ++ []⟩ :=
      .group (live id List.mem_cons_self) (unowned id List.mem_cons_self)
        (plain id List.mem_cons_self)
    refine Relation.ReflTransGen.trans (.head hfirst (steps_drop _ _)) (ih nodup ?_ ?_ ?_)
    · intro other hother
      obtain ⟨g, hg⟩ := Store.isLive_iff.mp (live other (List.mem_cons_of_mem _ hother))
      have hne : id ≠ other := fun heq => hnot (heq ▸ hother)
      exact Store.isLive_iff.mpr ⟨g, by rw [Store.group?_release, if_neg hne, hg]⟩
    · exact fun other hother => unowned other (List.mem_cons_of_mem _ hother)
    · intro other hother hobject
      exact plain other (List.mem_cons_of_mem _ hother) (Store.mem_removeUser.mp hobject)

/-- What `Store.retain` removes. -/
theorem mem_gone_iff {s : Store} {id : GroupId} :
    id ∈ s.groups.keys.filter
        (fun id => !((TreeSet.ofList owned).contains id || s.objects.contains id)) ↔
      s.isLive id = true ∧ id ∉ owned ∧ id ∉ s.objects := by
  rw [List.mem_filter, TreeMap.mem_keys, Store.isLive, ← TreeMap.mem_iff_contains,
    Bool.not_eq_true', Bool.or_eq_false_iff, ← Bool.not_eq_true, ← Bool.not_eq_true,
    ← TreeMap.mem_iff_contains, TreeSet.contains_ofList, List.contains_iff_mem]

theorem steps_retain (s : Store) (owned : List GroupId) :
    Steps owned held ⟨s, []⟩ ⟨s.retain owned, []⟩ := by
  refine steps_release (TreeMap.nodup_keys.filter _) ?_ ?_ ?_
  · exact fun id hid => (mem_gone_iff.mp hid).1
  · exact fun id hid => (mem_gone_iff.mp hid).2.1
  · exact fun id hid => (mem_gone_iff.mp hid).2.2

theorem steps_letGo {s : Store} (h : s.Indexed) (dropped : List GroupId) :
    Steps owned held ⟨s, []⟩ ⟨s.letGo held dropped, []⟩ := by
  refine (Store.letGoUpTo_induct (P := fun t => t.Indexed ∧ Steps owned held ⟨s, []⟩ ⟨t, []⟩)
    ?_ _ dropped ⟨h, .refl⟩).2
  rintro t id ⟨hindexed, hsteps⟩ hid hno
  have hfree : ¬(id ∈ held ∨ ∃ user, id ∈ t.valuesIn user) := by
    rw [← Store.isReferenced_iff hindexed hid, hno]
    exact Bool.false_ne_true
  rw [not_or, not_exists] at hfree
  have hgo : Next owned held ⟨t, []⟩ ⟨t.discard id, t.valuesIn id ++ []⟩ :=
    .object hid hfree.1 hfree.2 List.not_mem_nil
  exact ⟨Store.indexed_discard hindexed id,
    Relation.ReflTransGen.trans (hsteps.tail hgo) (steps_drop _ _)⟩

theorem steps_tidy {s : Store} (h : s.Sound) (owned : List GroupId) (held : Held)
    (falling : List GroupId) :
    Steps owned held ⟨s, falling⟩ ⟨(s.retain owned).settle held, []⟩ := by
  have hretain : s.Evolves (fun _ => True) (s.retain owned) := Store.evolves_retain h owned
  exact ((steps_drop s falling).trans (steps_retain s owned)).trans
    (steps_letGo hretain.sound.indexed _)

/-- A group that was retained is owned or that of an object. -/
theorem mem_owned_of_retain {s : Store} {id : GroupId} {g : Group}
    (h : (s.retain owned).group? id = some g) : id ∈ owned ∨ id ∈ s.objects := by
  rw [Store.retain, Store.group?_releaseAll] at h
  split at h
  · cases h
  · rename_i hkept
    by_contra hnone
    rw [not_or] at hnone
    exact hkept (mem_gone_iff.mpr ⟨Store.isLive_iff.mpr ⟨g, h⟩, hnone⟩)

/-- Afterwards a group is owned or that of an object, which is still there. -/
theorem mem_owned_of_tidy {s : Store} (h : s.Sound) {id : GroupId} {g : Group}
    (hg : ((s.retain owned).settle held).group? id = some g) :
    id ∈ owned ∨ id ∈ ((s.retain owned).settle held).objects := by
  refine (mem_owned_of_retain (Store.group?_letGo hg)).imp_right ?_
  exact (steps_tidy h owned held []).shrinks.together hg

theorem over_tidy {s : Store} (h : s.Sound) :
    Over owned held ⟨(s.retain owned).settle held, []⟩ := by
  intro c' hnext
  generalize hc : Cascade.mk ((s.retain owned).settle held) [] = c at hnext
  cases hnext with
  | group live unowned plain =>
    cases hc
    obtain ⟨g, hg⟩ := Store.isLive_iff.mp live
    rcases mem_owned_of_tidy h hg with howned | hobject
    · exact unowned howned
    · exact plain hobject
  | object there free unused dropped =>
    cases hc
    have hretain : s.Evolves (fun _ => True) (s.retain owned) := Store.evolves_retain h owned
    have hindexed := Store.indexed_letGo hretain.sound.indexed held (s.retain owned).objects.keys
    have hsettled := Store.settle_isSettled (s.retain owned) held _ there
    rcases (Store.isReferenced_iff hindexed there).mp hsettled with hheld | ⟨user, huser⟩
    · exact free hheld
    · exact unused user huser
  | drop =>
    injection hc with _ hfalling
    simp at hfalling

end Cascade

end Steward

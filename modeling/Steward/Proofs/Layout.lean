/-
Layout: the group of an object begins with the properties of its type, and stays so.

A type is built on its parent, which was built on its own, and so on (`TypeSpec.Lineage`).  Its
public properties are those that the specifications along this line declare, the oldest first, and
so are its private ones.  An object is made with a slot for each of them, none left out because
their names are all different, and whatever is done later adds slots at the end only.

* **`Lineage.keys_eq`** — the properties of a type, written out along its line;
* **`writeMember_eq`** — they have their slots (`Sound.keys_prefix`), so a write to one of them is
  refused only for the type of the value;
* **`instance_layout`** — at any time, an object can be read and written by name exactly as its
  type says, and what a host fails to write changes nothing.
-/
import Steward.Proofs.Arguments
import Steward.Proofs.FailedSteps
import Steward.Proofs.MemberAccess

namespace Steward

/-! ### Properties along a line of types -/

namespace TypeSpec

/-- The specifications that a type was built from: that of its first ancestor, and so on down to
its own. -/
inductive Lineage : List TypeSpec → ObjectType → Prop where
  | first {spec : TypeSpec} {stamp : Nat} {t : ObjectType} (root : spec.parent = none)
      (h : spec.build stamp = .ok t) : Lineage [spec] t
  | next {specs : List TypeSpec} {spec : TypeSpec} {stamp : Nat} {p t : ObjectType}
      (line : Lineage specs p) (parent : spec.parent = some p) (h : spec.build stamp = .ok t) :
      Lineage (specs ++ [spec]) t

variable {specs : List TypeSpec} {t : ObjectType}

theorem Lineage.publicKeys_eq (h : Lineage specs t) :
    t.publicKeys = specs.flatMap TypeSpec.publicKeys := by
  induction h with
  | @first spec stamp t root h =>
    obtain ⟨rfl, -⟩ := build_eq_ok h
    simp [allPublic, root]
  | @next specs spec stamp p t line parent h ih =>
    obtain ⟨rfl, -⟩ := build_eq_ok h
    simp [allPublic, parent, ih]

theorem Lineage.privateKeys_eq (h : Lineage specs t) :
    t.privateKeys = specs.flatMap TypeSpec.privateKeys := by
  induction h with
  | @first spec stamp t root h =>
    obtain ⟨rfl, -⟩ := build_eq_ok h
    simp [allPrivate, root]
  | @next specs spec stamp p t line parent h ih =>
    obtain ⟨rfl, -⟩ := build_eq_ok h
    simp [allPrivate, parent, ih]

/-- The properties of a type: public ones, then private ones, and those of an ancestor before
those of its descendants. -/
theorem Lineage.keys_eq (h : Lineage specs t) :
    t.keys = specs.flatMap TypeSpec.publicKeys ++ specs.flatMap TypeSpec.privateKeys := by
  rw [ObjectType.keys, h.publicKeys_eq, h.privateKeys_eq]

end TypeSpec

/-- Every built type stands at the end of a line. -/
theorem Definition.Built.exists_lineage {d : Definition} (h : d.Built) :
    ∀ t, d = .type t → ∃ specs, TypeSpec.Lineage specs t := by
  induction h with
  | contract => exact fun t ht => by cases ht
  | @type spec stamp t _ _ hbuild ihparent _ =>
    rintro _ ⟨rfl⟩
    cases hparent : spec.parent with
    | none => exact ⟨[spec], .first hparent hbuild⟩
    | some p =>
      obtain ⟨specs, line⟩ := ihparent p hparent p rfl
      exact ⟨specs ++ [spec], .next line hparent hbuild⟩

/-! ### Members -/

theorem ObjectType.mem_keys_of_property? {t : ObjectType} {name : String} {withPrivate : Bool}
    {k : Key} (h : t.property? name withPrivate = some k) : k ∈ t.keys := by
  rw [property?] at h
  split at h
  · rename_i hpublic
    cases h
    exact List.mem_append_left _ (List.mem_of_find?_eq_some hpublic)
  · split at h
    · exact List.mem_append_right _ (List.mem_of_find?_eq_some h)
    · cases h

namespace Store

variable {s : Store} {o : ObjectRef}

/-- A member whose slot is there is written unless the value is of the wrong type, and then read
with the new value. -/
theorem writeMember_eq {g : Group} {k : Key} (hg : s.group? o.group = some g)
    (hk : g.hasKey k = true) (value : Option ObjectRef) :
    ∃ old s', s.writeMember o k value = (k.check value).map (fun _ => (old, s')) ∧
      (k.check value = .ok () → s'.readMember o k = .ok value) := by
  obtain ⟨i, hi⟩ := Option.isSome_iff_exists.mp hk
  have hset : ∀ checked, k.check value = checked →
      s.writeMember o k value = checked.map fun _ =>
        (g.slots[i]?.bind Slot.value,
          s.write o.group { g with slots := g.slots.set i ⟨k, value⟩ }) := by
    rintro checked rfl
    rw [writeMember, set, read_eq_ok_iff.mpr hg]
    change (g.set k value >>= fun r => pure (r.1, s.write o.group r.2)) = _
    rw [Group.set, hi]
    dsimp only
    cases k.check value with
    | error e => rfl
    | ok => rfl
  refine ⟨_, _, hset _ rfl, fun hcheck => ?_⟩
  obtain ⟨g₁, g', hg₁, hgroup, hwrite⟩ := set_cases (hset _ hcheck)
  have hread : g'.get k = .ok value := by
    rw [Group.get_set hgroup, if_pos rfl]
  refine get_eq_ok_iff.mpr ⟨g', ?_, hread⟩
  rw [hwrite, group?_write, if_pos rfl]

end Store

/-- What it means that an object is laid out as its type says. -/
structure Store.LaidOut (s : Store) (o : ObjectRef) : Prop where
  /-- The group of the object begins with the properties of its type, which are those declared
  along its line: the public ones, then the private ones, and the oldest first. -/
  layout : ∃ specs g, TypeSpec.Lineage specs o.type ∧ s.group? o.group = some g ∧
    o.type.keys = specs.flatMap TypeSpec.publicKeys ++ specs.flatMap TypeSpec.privateKeys ∧
    o.type.keys <+: g.keys
  /-- What can be read are the properties that can be seen. -/
  read_iff : ∀ name withPrivate,
    (∃ value, (o.memberKey name withPrivate >>= s.readMember o) = .ok value) ↔
      (o.type.property? name withPrivate).isSome = true
  /-- What can not be seen can not be written. -/
  write_missing : ∀ name withPrivate value, o.type.property? name withPrivate = none →
    (o.memberKey name withPrivate >>= fun k => s.writeMember o k value) =
      .error (.missingKey (o.type.name.text ++ "." ++ name))
  /-- Nor can a property be set to an object of the wrong type. -/
  write_misfit : ∀ name withPrivate k v, o.type.property? name withPrivate = some k →
    v.satisfies k.type = false →
    (o.memberKey name withPrivate >>= fun k => s.writeMember o k (some v)) =
      .error (.typeMismatch k.name k.type.text v.type.name.text)
  /-- Every other write works, and is read afterwards. -/
  write_fitting : ∀ name withPrivate k value, o.type.property? name withPrivate = some k →
    (∀ v, value = some v → v.satisfies k.type = true) →
    ∃ old s', (o.memberKey name withPrivate >>= fun k => s.writeMember o k value) =
      .ok (old, s') ∧ s'.readMember o k = .ok value

theorem Store.laidOut {s : Store} {o : ObjectRef} (h : s.Sound) (hh : s.Housed) (ho : s.Has o)
    (built : Definition.Built (.type o.type)) : s.LaidOut o := by
  have hnodup := built.nodup
  have hslot : ∀ {name withPrivate k}, o.type.property? name withPrivate = some k →
      o.memberKey name withPrivate = .ok k ∧
        ∃ g, s.group? o.group = some g ∧ g.hasKey k = true := by
    intro name withPrivate k hk
    refine ⟨by rw [ObjectRef.memberKey, hk], ?_⟩
    exact h.hasKey_of_property hh ho hnodup (ObjectType.mem_keys_of_property? hk)
  have hmissing : ∀ {name withPrivate}, o.type.property? name withPrivate = none →
      o.memberKey name withPrivate = .error (.missingKey (o.type.name.text ++ "." ++ name)) := by
    intro name withPrivate hnone
    rw [ObjectRef.memberKey, hnone]
  refine ⟨?_, ?_, ?_, ?_, ?_⟩
  · obtain ⟨specs, line⟩ := built.exists_lineage _ rfl
    obtain ⟨g, hg, hpre⟩ := h.keys_prefix hh ho hnodup
    exact ⟨specs, g, line, hg, line.keys_eq, hpre⟩
  · intro name withPrivate
    cases hproperty : o.type.property? name withPrivate with
    | none =>
      rw [hmissing hproperty]
      refine iff_of_false ?_ Bool.false_ne_true
      rintro ⟨value, hvalue⟩
      cases hvalue
    | some k =>
      obtain ⟨hkey, g, hg, hhas⟩ := hslot hproperty
      obtain ⟨value, hvalue⟩ := Group.get_of_hasKey hhas
      refine iff_of_true ⟨value, ?_⟩ rfl
      rw [hkey]
      exact get_eq_ok_iff.mpr ⟨g, hg, hvalue⟩
  · intro name withPrivate value hnone
    rw [hmissing hnone]
    rfl
  · intro name withPrivate k v hproperty hmisfit
    obtain ⟨hkey, g, hg, hhas⟩ := hslot hproperty
    obtain ⟨old, s', hwrite, -⟩ := writeMember_eq hg hhas (some v)
    have hcheck : k.check (some v) =
        .error (.typeMismatch k.name k.type.text v.type.name.text) := by
      rw [Key.check, if_neg (by simp [hmisfit])]
    rw [hkey]
    change s.writeMember o k (some v) = _
    rw [hwrite, hcheck]
    rfl
  · intro name withPrivate k value hproperty hfits
    obtain ⟨hkey, g, hg, hhas⟩ := hslot hproperty
    obtain ⟨old, s', hwrite, hread⟩ := writeMember_eq hg hhas value
    have hcheck := Key.check_eq_ok_iff.mpr hfits
    refine ⟨old, s', ?_, hread hcheck⟩
    rw [hkey]
    change s.writeMember o k value = _
    rw [hwrite, hcheck]
    rfl

/-- **Objects are laid out as their types say.**  In every session there can be, whatever is going
on in it, and for every object that is there and whose type was built: the group of the object
begins with the properties of the type, none left out; reading by name works for the properties
that can be seen, and writing fails for the others and for values of the wrong type alone.  A host
that fails to write leaves every group as it was. -/
theorem instance_layout {s : Session} (hs : s.Reachable) :
    (∀ start, s.Underway start → ∀ m, Moment.Passes s.env ⟨start, [], s.store⟩ m →
      ∀ o, m.store.Has o → Definition.Built (.type o.type) → m.store.LaidOut o) ∧
    ∀ value object name withPrivate fault,
      (s.step (.object (.write value object name withPrivate))).1 = .error fault →
      ∀ id, (s.step (.object (.write value object name withPrivate))).2.store.group? id =
        s.store.group? id := by
  constructor
  · intro start hstart m hm o ho built
    have hsound := hs.sound
    have hevolves := (hm.secure (hsound.secure hstart)).evolves
    have hhoused : m.store.Housed :=
      hevolves.housed (hsound.housed (hsound.isOpen_of_underway hstart))
    exact Store.laidOut hevolves.sound hhoused ho built
  · intro value object name withPrivate fault hfault id
    exact hs.group?_of_failed Host.failsClean_write hfault id

namespace Lodger

/-- A host makes a type on another one, an object of it, and adds a slot to the object. -/
def steps : List Step := [
  .definition (.type "Base" [("label", "Text")] [("secret", "Text")] [] none none none "base"),
  .definition (.type "Safe" [("inside", "Base")] [("code", "Text")] [] (some "base") none none
    "safe"),
  .object (.instantiate "safe" "o"),
  .memory (.rawAdd (.object "o") ("extra", "Text") none)]

def session : Session :=
  ((Session.start {}).steps steps).2

def base : TypeSpec :=
  { name := ⟨"Base"⟩, publicKeys := [⟨"label", ⟨"Text"⟩⟩], privateKeys := [⟨"secret", ⟨"Text"⟩⟩] }

def baseType : ObjectType :=
  ⟨0, ⟨"Base"⟩, none, [], [⟨"label", ⟨"Text"⟩⟩], [⟨"secret", ⟨"Text"⟩⟩], none, none⟩

def safe : TypeSpec :=
  { name := ⟨"Safe"⟩, parent := some baseType, publicKeys := [⟨"inside", ⟨"Base"⟩⟩]
    privateKeys := [⟨"code", ⟨"Text"⟩⟩] }

def safeType : ObjectType :=
  ⟨1, ⟨"Safe"⟩, some baseType, [], [⟨"label", ⟨"Text"⟩⟩, ⟨"inside", ⟨"Base"⟩⟩],
    [⟨"secret", ⟨"Text"⟩⟩, ⟨"code", ⟨"Text"⟩⟩], none, none⟩

theorem built_safe : Definition.Built (.type safeType) := by
  have hbase : base.build 0 = .ok baseType := rfl
  have hsafe : safe.build 1 = .ok safeType := rfl
  refine .type (fun p hp => ?_) (fun c hc => absurd hc List.not_mem_nil) hsafe
  cases hp
  exact .type (fun p hp => by cases hp) (fun c hc => absurd hc List.not_mem_nil) hbase

end Lodger

open Lodger in
theorem instance_layout_lodger :
    (session.store.group? 1).map (fun g => g.keys.map Key.name) =
      some ["label", "inside", "secret", "code", "extra"] ∧
    session.store.LaidOut ⟨safeType, 1⟩ ∧
    (session.step (.object (.write (some "o") "o" "label" false))).1 =
      .error (.failed (.typeMismatch "label" "Text" "Safe")) ∧
    ∀ id, (session.step (.object (.write (some "o") "o" "label" false))).2.store.group? id =
      session.store.group? id := by
  have hs : session.Reachable := Session.reachable_steps {} steps
  have hthere : session.store.Has ⟨safeType, 1⟩ := ⟨none, rfl⟩
  have hfault : (session.step (.object (.write (some "o") "o" "label" false))).1 =
      .error (.failed (.typeMismatch "label" "Text" "Safe")) := rfl
  have hopen : session.isOpen = true := rfl
  refine ⟨by decide +kernel, ?_, hfault, ?_⟩
  · exact (instance_layout hs).1 _ (.rest hopen) _ .refl _ hthere built_safe
  · exact (instance_layout hs).2 _ _ _ _ _ hfault

end Steward

/-
Member access: what a slot promises can be read from the object in it.

A slot is declared with the name of a definition.  The object in it is compatible with that
name (`types_preserved`), so its type descends from the definition (`isNamed_iff_descends`)
and shows every key of it (`Built.publicKeys_subset`); and its group is there, with a slot
for every key of its type, at the front.  Each of these is proved elsewhere, and here they
are put together:

* **`member_access`** — every public key of the definition is found on the object under its
  name, and reading it works.
-/
import Steward.Proofs.Promises
import Steward.Proofs.SoundSession

namespace Steward

open Std (TreeMap)

open Definition

namespace Store

variable {s : Store} {o : ObjectRef}

/-- The properties of the type of an object come first in its group. -/
theorem Sound.keys_prefix (h : s.Sound) (hh : s.Housed) (ho : s.Has o)
    (hnodup : (o.type.keys.map Key.name).Nodup) :
    ∃ g, s.group? o.group = some g ∧ o.type.keys <+: g.keys := by
  obtain ⟨p, hobject⟩ := ho
  obtain ⟨g, hg⟩ := hh hobject
  have hlayout := h.layout hobject hg
  rw [Group.keys_ofKeys hnodup] at hlayout
  exact ⟨g, hg, hlayout⟩

/-- So each of them is found in it. -/
theorem Sound.hasKey_of_property (h : s.Sound) (hh : s.Housed) (ho : s.Has o)
    (hnodup : (o.type.keys.map Key.name).Nodup) {k : Key} (hk : k ∈ o.type.keys) :
    ∃ g, s.group? o.group = some g ∧ g.hasKey k = true := by
  obtain ⟨g, hg, hpre⟩ := h.keys_prefix hh ho hnodup
  refine ⟨g, hg, Group.hasKey_of_prefix hpre hk fun k' hk' hname => ?_⟩
  exact List.inj_on_of_nodup_map hnodup hk' hk hname

end Store

/-- Whatever is in a slot has a live group, in which every key of its type is found. -/
theorem Session.Sound.hasKey_of_value {s : Session} (h : s.Sound) {id : GroupId} {g : Group}
    (hg : s.store.group? id = some g) {v : ObjectRef} (hv : v ∈ g.values)
    (hnodup : (v.type.keys.map Key.name).Nodup) {k : Key} (hk : k ∈ v.type.keys) :
    ∃ fields, s.store.group? v.group = some fields ∧ fields.hasKey k = true := by
  have isOpen : s.isOpen = true := by
    cases hopen : s.isOpen with
    | true => rfl
    | false =>
      -- a closed session has no group to find a value in
      rw [h.closed hopen id] at hg
      cases hg
  exact h.store.hasKey_of_property (h.housed isOpen) (h.store.present hg v hv) hnodup hk

/-- **Well-typed member access cannot miss.**  In every session there can be, let the types of
all objects belong to a coherent set of built definitions.  If a slot of a live group is
declared with the name of a definition of the set and holds an object, then every public key
of that definition is the property that the object's type has under its name, and reading
that member of the object gives a result. -/
theorem member_access {s : Session} (hs : s.Reachable) {U : Set Definition} (coherent : Coherent U)
    (built : ∀ d ∈ U, d.Built)
    (types : ∀ (id : GroupId) (x : Object), s.store.objects[id]? = some x → .type x.ref.type ∈ U)
    {id : GroupId} {g : Group} (hg : s.store.group? id = some g) {x : Slot} (hx : x ∈ g.slots)
    {v : ObjectRef} (hv : x.value = some v) {d : Definition} (hd : d ∈ U)
    (hname : d.name = x.key.type) {k : Key} (hk : k ∈ d.publicKeys) :
    v.type.property? k.name false = some k ∧
      ∃ value, (v.memberKey k.name false >>= s.store.readMember v) = .ok value := by
  have h := hs.sound
  have hvalue : v ∈ g.values := Group.mem_values.mpr ⟨x, hx, hv⟩
  obtain ⟨p, hobject⟩ := h.store.present hg v hvalue
  have htype : .type v.type ∈ U := by
    obtain ⟨x', hx', hcore⟩ := Option.map_eq_some_iff.mp hobject
    have := types v.group x' hx'
    rwa [show x'.ref = v from congrArg Prod.fst hcore] at this
  have hclosure := subset_closure htype
  -- the definition that makes the object compatible with the slot is the one of that name
  have hdescends : (Definition.type v.type).Descends d := by
    obtain ⟨e, hve, he⟩ := descends_of_isNamed (d := .type v.type) (h.store.fits hg x hx v hv)
    obtain rfl := coherent e (descends_mem_closure hclosure hve) d (subset_closure hd)
      (he.trans hname.symm)
    exact hve
  have hbuilt := built _ htype
  have hpublic : k ∈ v.type.publicKeys :=
    hbuilt.publicKeys_subset coherent hclosure hdescends k hk
  have hproperty := hbuilt.property?_eq hpublic
  refine ⟨hproperty, ?_⟩
  obtain ⟨fields, hfields, hkey⟩ :=
    h.hasKey_of_value hg hvalue hbuilt.nodup (List.mem_append_left _ hpublic)
  obtain ⟨value, hget⟩ := Group.get_of_hasKey hkey
  refine ⟨value, ?_⟩
  rw [ObjectRef.memberKey, hproperty]
  exact Store.get_eq_ok_iff.mpr ⟨fields, hfields, hget⟩

namespace Sample

def label : Key := ⟨"label", ⟨"Text"⟩⟩

def labelled : Contract := ⟨0, ⟨"Labelled"⟩, [label], []⟩

def figure : ObjectType := ⟨1, ⟨"Figure"⟩, none, [labelled], [label], [], none, none⟩

def point : ObjectType := ⟨2, ⟨"Point"⟩, some figure, [], [label], [], none, none⟩

def definitions : List Definition := [.type point, .type figure, .contract labelled]

theorem coherent : Coherent {d | d ∈ definitions} :=
  coherent_of_nodup (fun _ hd => hd) (by simp [definitions, bases, point, figure, labelled])
    (by decide)

theorem built : ∀ d ∈ definitions, d.Built := by
  have hlabelled : Built (.contract labelled) := by
    have h : Contract.define 0 ⟨"Labelled"⟩ [label] [] = .ok labelled := rfl
    exact .contract (fun p hp => absurd hp List.not_mem_nil) h
  have hfigure : Built (.type figure) := by
    have h : TypeSpec.build ⟨⟨"Figure"⟩, none, [labelled], [label], [], none, none⟩ 1 =
      .ok figure := rfl
    refine .type (fun p hp => by cases hp) ?_ h
    intro c hc
    obtain rfl := List.mem_singleton.mp hc
    exact hlabelled
  have hpoint : Built (.type point) := by
    have h : TypeSpec.build ⟨⟨"Point"⟩, some figure, [], [], [], none, none⟩ 2 = .ok point := rfl
    refine .type ?_ (fun c hc => absurd hc List.not_mem_nil) h
    intro p hp
    cases hp
    exact hfigure
  simp [definitions, hlabelled, hfigure, hpoint]

/-- What the steps of the sample come to. -/
theorem memory : Session.sample.store.objects.toList.map (fun x => x.2.ref.type) = [point] ∧
    Session.sample.store.group? 2 =
      some ⟨.statics, [⟨⟨"it", ⟨"Labelled"⟩⟩, some ⟨point, 1⟩⟩]⟩ :=
  ⟨rfl, rfl⟩

end Sample

theorem member_access_sample :
    Sample.point.property? "label" false = some Sample.label ∧
      ∃ value, (ObjectRef.memberKey ⟨Sample.point, 1⟩ "label" false >>=
        Session.sample.store.readMember ⟨Sample.point, 1⟩) = .ok value := by
  refine member_access Session.reachable_sample Sample.coherent Sample.built ?_ Sample.memory.2
    (List.mem_singleton_self _) rfl (d := .contract Sample.labelled) ?_ rfl (k := Sample.label) ?_
  · intro id x hx
    have hmem := List.mem_map_of_mem (f := fun x : GroupId × Object => x.2.ref.type)
      (TreeMap.mem_toList_iff_getElem?_eq_some.mpr hx)
    rw [Sample.memory.1] at hmem
    rw [List.mem_singleton.mp hmem]
    exact List.mem_cons_self
  · exact List.mem_cons_of_mem _ (List.mem_cons_of_mem _ List.mem_cons_self)
  · exact List.mem_cons_self

end Steward

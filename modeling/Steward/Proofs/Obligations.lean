/-
Obligations: what a type owes to the contracts behind it, however far away they are.

A type is checked against the contracts it declares itself.  The others reach it through one
of these, or through one that a type it descends from declares (`Descends.through_declared`);
what an ancestor was checked for it still shows (`Built.required_subset`).  So what is left is
whether a declared contract asks for all that is asked for above it:

* **`no_obligation_escapes`** — every key of every contract a built type descends from is among
  its public properties, if the contracts above one declared contract have different names;
* **`obligation_escapes_shared_name`** — without that it is not so: of two parents of one name,
  the second is taken for the first, and its keys are never asked for.
-/
import Steward.Proofs.Promises

namespace Steward

namespace Definition

/-- A contract that a type descends from stands above one that is declared by the type or by a
type it descends from. -/
theorem Descends.through_declared {t : ObjectType} {c : Contract}
    (h : (Definition.type t).Descends (.contract c)) :
    ∃ u d, (Definition.type t).Descends (.type u) ∧ d ∈ u.contracts ∧
      (Definition.contract d).Descends (.contract c) := by
  -- by induction on the way to the contract; only its last step can come from a type
  generalize hx : Definition.contract c = x at h
  induction h generalizing c with
  | refl => cases hx
  | @tail y x hty hyx ih =>
    subst hx
    cases y with
    | type u =>
      refine ⟨u, c, hty, ?_, .refl _⟩
      rcases List.mem_append.mp hyx with hc | hp
      · obtain ⟨c', hc', heq⟩ := List.mem_map.mp hc
        cases heq
        exact hc'
      · obtain ⟨p, -, heq⟩ := List.mem_map.mp hp
        cases heq
    | contract b =>
      obtain ⟨u, d, htu, hd, hdb⟩ := ih rfl
      exact ⟨u, d, htu, hd, hdb.trans (.of_base hyx (.refl _))⟩

/-- A built type shows what is asked for by the contracts that its ancestors, itself included,
declare. -/
theorem Built.required_subset {t u : ObjectType} (hb : Built (.type t))
    (h : (Definition.type t).Descends (.type u)) {d : Contract} (hd : d ∈ u.contracts) :
    ∀ k ∈ d.required, k ∈ t.publicKeys := by
  generalize hx : Definition.type t = x at h
  induction h using Relation.ReflTransGen.head_induction_on generalizing t with
  | refl =>
    cases hx
    exact hb.shows.2 d hd
  | head hbase hrest ih =>
    subst hx
    rcases List.mem_append.mp hbase with hc | hp
    · -- no type stands above a contract
      obtain ⟨c, -, rfl⟩ := List.mem_map.mp hc
      obtain ⟨c', hc'⟩ := Descends.of_contract hrest
      cases hc'
    · obtain ⟨p, hp, rfl⟩ := List.mem_map.mp hp
      obtain ⟨hbp, hpre⟩ := hb.shows.1 p (by simpa using hp)
      intro k hk
      exact hpre.subset (ih hbp rfl k hk)

/-- **No type escapes the obligations of a contract.**  A built type has every key that is
declared by a contract it descends from, through its parents, their contracts and the parents
of these, among its public properties.  The condition is that, above each contract that is
declared on the way, a name stands for one contract. -/
theorem no_obligation_escapes {t : ObjectType} (hb : Built (.type t))
    (coherent : ∀ u d, (Definition.type t).Descends (.type u) → d ∈ u.contracts →
      Coherent {.contract d})
    {c : Contract} (h : (Definition.type t).Descends (.contract c)) :
    ∀ k ∈ c.properties, k ∈ t.publicKeys := by
  obtain ⟨u, d, htu, hd, hdc⟩ := h.through_declared
  intro k hk
  have hrequired : k ∈ d.required :=
    (Contract.mem_required_iff (coherent u d htu hd)).mpr ⟨_, hdc, hk⟩
  exact hb.required_subset htu hd k hrequired

namespace Sample

def area : Key := ⟨"area", ⟨"Num"⟩⟩

def volume : Key := ⟨"volume", ⟨"Num"⟩⟩

def plane : Contract := ⟨0, ⟨"Shape"⟩, [area], []⟩

/-- A contract of the same name as the other one. -/
def solid : Contract := ⟨1, ⟨"Shape"⟩, [volume], []⟩

def drawn : Contract := ⟨2, ⟨"Drawn"⟩, [], [plane]⟩

def figure : ObjectType := ⟨3, ⟨"Figure"⟩, none, [drawn], [area], [], none, none⟩

def square : ObjectType := ⟨4, ⟨"Square"⟩, some figure, [], [area], [], none, none⟩

def modelled : Contract := ⟨5, ⟨"Modelled"⟩, [], [plane, solid]⟩

def box : ObjectType := ⟨6, ⟨"Box"⟩, none, [modelled], [area], [], none, none⟩

theorem built_plane : Built (.contract plane) := by
  have h : Contract.define 0 ⟨"Shape"⟩ [area] [] = .ok plane := rfl
  exact .contract (fun p hp => absurd hp List.not_mem_nil) h

theorem built_square : Built (.type square) := by
  have hdrawn : Built (.contract drawn) := by
    have h : Contract.define 2 ⟨"Drawn"⟩ [] [plane] = .ok drawn := rfl
    exact .contract (by simpa using built_plane) h
  have hfigure : Built (.type figure) := by
    have h : TypeSpec.build { name := ⟨"Figure"⟩, contracts := [drawn], publicKeys := [area] } 3 =
      .ok figure := rfl
    exact .type (by simp) (by simpa using hdrawn) h
  have h : TypeSpec.build { name := ⟨"Square"⟩, parent := some figure } 4 = .ok square := rfl
  exact .type (by simpa using hfigure) (by simp) h

theorem coherent_square :
    Coherent {d | d ∈ [.type square, .type figure, .contract drawn, .contract plane]} :=
  coherent_of_nodup (fun _ hd => hd) (by simp [bases, square, figure, drawn, plane]) (by decide)

theorem square_descends : (Definition.type square).Descends (.contract plane) :=
  .of_base (b := .type figure) (by simp [bases, square])
    (.of_base (b := .contract drawn) (by simp [bases, figure])
      (.of_base (by simp [bases, drawn]) (.refl _)))

theorem built_box : Built (.type box) := by
  have hsolid : Built (.contract solid) := by
    have h : Contract.define 1 ⟨"Shape"⟩ [volume] [] = .ok solid := rfl
    exact .contract (fun p hp => absurd hp List.not_mem_nil) h
  have hmodelled : Built (.contract modelled) := by
    have h : Contract.define 5 ⟨"Modelled"⟩ [] [plane, solid] = .ok modelled := rfl
    exact .contract (by simpa using ⟨built_plane, hsolid⟩) h
  have h : TypeSpec.build { name := ⟨"Box"⟩, contracts := [modelled], publicKeys := [area] } 6 =
    .ok box := rfl
  exact .type (by simp) (by simpa using hmodelled) h

end Sample

/-- A square owes the area to a contract above the one that its parent declares. -/
theorem no_obligation_escapes_square :
    (Definition.type Sample.square).Descends (.contract Sample.plane) ∧
      ∀ k ∈ Sample.plane.properties, k ∈ Sample.square.publicKeys := by
  refine ⟨Sample.square_descends,
    no_obligation_escapes Sample.built_square ?_ Sample.square_descends⟩
  intro u d hu hd
  refine Sample.coherent_square.of_subset_closure ?_
  rintro x rfl
  exact ⟨.type Sample.square, List.mem_cons_self,
    hu.trans (.of_base (List.mem_append_left _ (List.mem_map_of_mem hd)) (.refl _))⟩

/-- **An obligation that escapes.**  A box declares a contract with two parents of one name, and
shows the keys of the first; nobody asks for those of the second. -/
theorem obligation_escapes_shared_name :
    Built (.type Sample.box) ∧ (Definition.type Sample.box).Descends (.contract Sample.solid) ∧
      Sample.volume ∈ Sample.solid.properties ∧ Sample.volume ∉ Sample.box.publicKeys := by
  refine ⟨Sample.built_box, ?_, List.mem_singleton_self _, by decide⟩
  exact .of_base (b := .contract Sample.modelled) (by simp [bases, Sample.box])
    (.of_base (by simp [bases, Sample.modelled]) (.refl _))

end Definition

end Steward

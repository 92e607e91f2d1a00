/-
Inheritance: whoever looks at a descendant of a type sees what the type shows, and no more of it.

A type is built on its parent: its own properties come after those of the parent, the public ones
and the private ones each in a list of their own.  This alone keeps what is public above.  What is
private above could still be made public by declaring its name again, and what is public could be
declared a second time, with another type.  Both are refused, because all properties of a type have
different names.

* **`Built.extends_ancestor`** — the lists of an ancestor are the first part of the lists of its
  descendants, however many parents lie between them;
* **`ObjectType.property?_eq_of_prefix`** — so a name that is visible above is looked up below with
  the same result, be it public or private, and whoever asks;
* **`Session.Reachable.built`** — the types of a session are built, at all times;
* **`inheritance_transparent`** — hence inheritance neither hides nor exposes a property.
-/
import Mathlib.Logic.Relation
import Steward.Proofs.Promises
import Steward.Proofs.SessionEffects
import Steward.Proofs.Tables

namespace Steward

/-! ### What is looked up in one type -/

namespace ObjectType

variable {t p : ObjectType} {k : Key}

/-- A private property is found if private ones are asked for: no public one has its name. -/
theorem property?_of_private (h : (t.keys.map Key.name).Nodup) (hk : k ∈ t.privateKeys)
    (withPrivate : Bool) :
    t.property? k.name withPrivate = if withPrivate then some k else none := by
  rw [keys, List.map_append] at h
  obtain ⟨-, hprivate, hapart⟩ := List.nodup_append.mp h
  have hpublic : t.publicKeys.find? (·.name == k.name) = none := by
    rw [List.find?_eq_none]
    intro x hx hname
    have hname : x.name = k.name := by simpa using hname
    exact hapart _ (List.mem_map_of_mem hx) _ (List.mem_map_of_mem hk) hname
  rw [property?, hpublic, find?_eq_of_nodup hprivate hk]

/-- Longer lists change nothing about the names that are visible already. -/
theorem property?_eq_of_prefix (ht : (t.keys.map Key.name).Nodup)
    (hp : (p.keys.map Key.name).Nodup) (hpublic : p.publicKeys <+: t.publicKeys)
    (hprivate : p.privateKeys <+: t.privateKeys) (hk : k ∈ p.keys) (withPrivate : Bool) :
    t.property? k.name withPrivate = p.property? k.name withPrivate := by
  rcases List.mem_append.mp hk with hk | hk
  · rw [property?_of_public ht (hpublic.subset hk), property?_of_public hp hk]
  · rw [property?_of_private ht (hprivate.subset hk), property?_of_private hp hk]

/-- Whether `p` is the type itself or an ancestor of it, any number of parents up. -/
def Inherits (t p : ObjectType) : Prop :=
  Relation.ReflTransGen (fun a b => a.parent = some b) t p

/-- Whether what is visible on `p` is in `t` as it is in `p`: its properties come first, in the
same order, and a look-up by name has the same result. -/
structure Keeps (t p : ObjectType) : Prop where
  publicKeys : p.publicKeys <+: t.publicKeys
  privateKeys : p.privateKeys <+: t.privateKeys
  property : ∀ name, (∃ k ∈ p.keys, k.name = name) → ∀ withPrivate,
    t.property? name withPrivate = p.property? name withPrivate

end ObjectType

/-! ### Along the parents -/

namespace Definition

variable {t p : ObjectType}

/-- What the parent keeps to itself comes first among what a built type keeps to itself. -/
theorem Built.privateKeys_prefix (h : Built (.type t)) (hp : t.parent = some p) :
    p.privateKeys <+: t.privateKeys := by
  cases h with
  | @type spec stamp _ parent contracts hbuild =>
    obtain ⟨rfl, -, -⟩ := TypeSpec.build_eq_ok hbuild
    have hp : spec.parent = some p := hp
    show p.privateKeys <+: spec.allPrivate
    rw [TypeSpec.allPrivate, hp]
    exact List.prefix_append _ _

/-- Any number of parents up, there is a type that was built, and its properties come first. -/
theorem Built.extends_ancestor (h : Built (.type t)) (hp : t.Inherits p) :
    Built (.type p) ∧ p.publicKeys <+: t.publicKeys ∧ p.privateKeys <+: t.privateKeys := by
  -- by induction on the way up; each step adds the parent of the type that was reached
  induction hp with
  | refl => exact ⟨h, List.prefix_rfl, List.prefix_rfl⟩
  | tail _ hparent ih =>
    obtain ⟨hbuilt, hpublic, hprivate⟩ := ih
    obtain ⟨habove, hshown⟩ := hbuilt.shows.1 _ hparent
    have hkept := hbuilt.privateKeys_prefix hparent
    exact ⟨habove, hshown.trans hpublic, hkept.trans hprivate⟩

theorem Built.keeps (h : Built (.type t)) (hp : t.Inherits p) : t.Keeps p := by
  obtain ⟨habove, hpublic, hprivate⟩ := h.extends_ancestor hp
  refine ⟨hpublic, hprivate, ?_⟩
  rintro _ ⟨k, hk, rfl⟩ withPrivate
  exact ObjectType.property?_eq_of_prefix h.nodup habove.nodup hpublic hprivate hk withPrivate

end Definition

/-! ### The types of a session -/

namespace Session

variable {s s' : Session}

/-- Whether all definitions of a session are built. -/
structure AllBuilt (s : Session) : Prop where
  types : ∀ t ∈ s.types.values, Definition.Built (.type t)
  contracts : ∀ c ∈ s.contracts.values, Definition.Built (.contract c)

theorem allBuilt_start (config : Config) : (start config).AllBuilt where
  types _ ht := absurd ht List.not_mem_nil
  contracts _ hc := absurd hc List.not_mem_nil

/-- A definition is made of definitions of the session, which are built. -/
theorem allBuilt_effect (heff : Effect s s') (h : s.AllBuilt) : s'.AllBuilt := by
  cases heff with
  | contract known hdefine =>
    refine ⟨h.types, fun c hc => ?_⟩
    rcases Table.mem_values_of_insert hc with rfl | hc
    · exact .contract (fun p hp => h.contracts p (known p hp)) hdefine
    · exact h.contracts c hc
  | type parent contracts hbuild =>
    refine ⟨fun t ht => ?_, h.contracts⟩
    rcases Table.mem_values_of_insert ht with rfl | ht
    · exact .type (fun p hp => h.types p (parent p hp))
        (fun c hc => h.contracts c (contracts c hc)) hbuild
    · exact h.types t ht
  | @drop what name => cases what <;> exact { h with }
  | resume _ hs =>
    subst hs
    exact { h with }
  | note | remember | lock | pass | allocate | operate | enter | wait | draft | depend | define
  | script | addScript | build | load | resolve | close | tidy => exact { h with }

/-- **In every session there can be, definitions are built.** -/
theorem Reachable.built (h : s.Reachable) : s.AllBuilt :=
  h.induct allBuilt_start allBuilt_effect

end Session

/-- **Inheritance neither hides nor exposes a property.**  For every type that was built and every
ancestor of it, however far away: the public properties of the ancestor are the first ones of the
type, the private ones are too, and a name that is visible on the ancestor, in public or in private,
is looked up in the type with the same result, with private properties or without.  Every type of a
session was built, whatever a host does. -/
theorem inheritance_transparent :
    (∀ t p : ObjectType, Definition.Built (.type t) → t.Inherits p → t.Keeps p) ∧
    ∀ s : Session, s.Reachable → ∀ t ∈ s.types.values, ∀ p, t.Inherits p → t.Keeps p := by
  constructor
  · intro t p built h
    exact built.keeps h
  · intro s hs t ht p h
    have built := hs.built.types t ht
    exact built.keeps h

namespace Bureau

def price : Key := ⟨"price", ⟨"Num"⟩⟩

def width : Key := ⟨"width", ⟨"Num"⟩⟩

def drawer : Key := ⟨"drawer", ⟨"Letter"⟩⟩

def furniture : ObjectType := ⟨0, ⟨"Furniture"⟩, none, [], [], [price], none, none⟩

def desk : ObjectType := ⟨1, ⟨"Desk"⟩, some furniture, [], [width], [price], none, none⟩

def bureau : ObjectType :=
  ⟨2, ⟨"Bureau"⟩, some desk, [], [width], [price, drawer], none, none⟩

theorem built : Definition.Built (.type bureau) := by
  have hfurniture : Definition.Built (.type furniture) := by
    have h : TypeSpec.build { name := ⟨"Furniture"⟩, privateKeys := [price] } 0 = .ok furniture :=
      rfl
    exact .type (by simp) (by simp) h
  have hdesk : Definition.Built (.type desk) := by
    have h : TypeSpec.build
        { name := ⟨"Desk"⟩, parent := some furniture, publicKeys := [width] } 1 = .ok desk := rfl
    exact .type (by simpa using hfurniture) (by simp) h
  have h : TypeSpec.build
      { name := ⟨"Bureau"⟩, parent := some desk, privateKeys := [drawer] } 2 = .ok bureau := rfl
  exact .type (by simpa using hdesk) (by simp) h

theorem inherits : bureau.Inherits furniture :=
  .head (b := desk) rfl (.single rfl)

/-- A host makes these types; one that would show the price to everyone is refused. -/
def steps : List Step := [
  .definition (.type "Furniture" [] [("price", "Num")] [] none none none "furniture"),
  .definition (.type "Desk" [("width", "Num")] [] [] (some "furniture") none none "desk"),
  .definition (.type "Display" [("price", "Num")] [] [] (some "desk") none none "display"),
  .definition (.type "Bureau" [] [("drawer", "Letter")] [] (some "desk") none none "bureau")]

def session : Session :=
  ((Session.start {}).steps steps).2

end Bureau

open Bureau in
/-- The price of a bureau is as private as that of any furniture. -/
theorem inheritance_transparent_bureau :
    Definition.Built (.type bureau) ∧ bureau.Inherits furniture ∧ bureau.Keeps furniture ∧
    (∀ withPrivate,
      bureau.property? "price" withPrivate = furniture.property? "price" withPrivate) ∧
    session.types.values.map (·.name.text) = ["Furniture", "Desk", "Bureau"] ∧
    ∀ t ∈ session.types.values, ∀ p, t.parent = some p → t.Keeps p := by
  have kept : bureau.Keeps furniture := inheritance_transparent.1 bureau furniture built inherits
  have reachable : session.Reachable := Session.reachable_steps {} steps
  have hprice : ∃ k ∈ furniture.keys, k.name = "price" := ⟨price, by decide, rfl⟩
  refine ⟨built, inherits, kept, kept.property "price" hprice, by decide +kernel, ?_⟩
  intro t ht p hp
  exact inheritance_transparent.2 session reachable t ht p (.single hp)

end Steward

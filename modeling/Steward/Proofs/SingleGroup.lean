/-
A group by itself, and the view of that group alone.

A group by itself answers from its own slots.  A view searches the groups it links, refuses a name
that is met in any of them and lists every key once; when it links one group alone, this comes to
the same.

* **`View.add_single`** and its like — what the view of one group does, said of the group;
* **`Access.matches_single`** — every operation, in stores that agree;
* **`Access.askAll_single`** — any number of requests, each of them followed by whatever goes.

Design notes: where a name is taken, a group by itself is written back as it is and a view leaves
the store alone.  This is why the stores agree and are not the same, and why the users of objects
have to be up to date.
-/
import Steward.Proofs.AgreeingStores
import Steward.Proofs.Arguments
import Steward.Proofs.LiveLinks

namespace Steward

open Store (Tied)

/-- A key that is not there cannot be set. -/
theorem Group.set_of_not_hasKey {g : Group} {key : Key} (h : g.hasKey key = false)
    (value : Option ObjectRef) : g.set key value = .error (.missingKey key.display) := by
  have hnone : g.position? key = none := by simpa [hasKey] using h
  rw [set, hnone]

namespace View

variable {s s' : Store}

/-! ### The view of one group -/

/-- One group seen as a view, which takes new slots. -/
def single (id : GroupId) : View :=
  ⟨[], some id⟩

theorem firstWith_single (s : Store) (has : Group → Bool) (id : GroupId) :
    firstWith s has (single id).links =
      (s.read id).map fun g => if has g = true then some id else none := by
  rw [single, links, List.nil_append, Option.toList_some, firstWith]
  cases s.read id with
  | error e => rfl
  | ok g => cases hhas : has g <;> simp [firstWith, Except.map, hhas]

theorem get_single (s : Store) (id : GroupId) (key : Key) :
    (single id).get s key = s.get id key := by
  rw [get, owner?, firstWith_single]
  cases hread : s.read id with
  | error e =>
    rw [Store.get, hread]
    rfl
  | ok g =>
    rw [Except.map]
    cases hhas : g.hasKey key with
    | true => rfl
    | false =>
      rw [Store.get, hread]
      exact (Group.get_of_not_hasKey hhas).symm

theorem set_single (s : Store) (id : GroupId) (key : Key) (value : Option ObjectRef) :
    (single id).set s key value = s.set id key value := by
  rw [set, owner?, firstWith_single]
  cases hread : s.read id with
  | error e =>
    rw [Store.set, hread]
    rfl
  | ok g =>
    rw [Except.map]
    cases hhas : g.hasKey key with
    | true => rfl
    | false =>
      have hset : s.set id key value = .error (.missingKey key.display) := by
        rw [Store.set, hread]
        change g.set key value >>= _ = _
        rw [Group.set_of_not_hasKey hhas]
        rfl
      rw [hset]
      rfl

theorem hasKey_single (s : Store) (id : GroupId) (key : Key) :
    (single id).hasKey s key = (s.read id).map (·.hasKey key) := by
  rw [hasKey, owner?, firstWith_single]
  cases s.read id with
  | error e => rfl
  | ok g =>
    change Except.ok (if g.hasKey key = true then some id else none).isSome = .ok (g.hasKey key)
    cases g.hasKey key <;> rfl

/-- The keys of a group are different, so none of them is passed over. -/
theorem keys_single (hd : s.Every Group.Distinct) (id : GroupId) :
    (single id).keys s = (s.read id).map Group.keys := by
  rw [keys, single, links, List.nil_append, Option.toList_some, keysFrom]
  cases hread : s.read id with
  | error e => rfl
  | ok g =>
    have hnodup : ([] ++ g.keys).Nodup := .of_map Key.name (hd (Store.read_eq_ok_iff.mp hread))
    change Except.ok (addNew [] g.keys) = .ok g.keys
    rw [addNew_eq_append hnodup, List.nil_append]

theorem findKey?_single (s : Store) (id : GroupId) (name : String) :
    (single id).findKey? s name = (s.read id).map (·.findKey? name) := by
  rw [findKey?, firstWith_single]
  cases hread : s.read id with
  | error e => rfl
  | ok g =>
    rw [Except.map]
    cases hhas : g.hasName name with
    | true =>
      change s.read id >>= _ = _
      rw [hread]
      rfl
    | false =>
      rw [Group.hasName_eq, Option.isSome_eq_false_iff, Option.isNone_iff_eq_none] at hhas
      rw [Except.map, hhas]
      rfl

/-- Where the name is taken the view leaves the store alone, and the group is written back as it
is. -/
theorem add_single (h : s.Agrees s') (hs : s.Indexed) (id : GroupId) (key : Key)
    (value : Option ObjectRef) :
    Tied Store.Agrees (s.add id key value) ((single id).add s' key value) := by
  change Tied _ _ (firstWith s' _ (single id).links >>= _)
  rw [firstWith_single, ← h.read_eq]
  cases hread : s.read id with
  | error e =>
    rw [Store.add, hread]
    exact .error e
  | ok g =>
    rw [Except.map]
    cases hhas : g.hasName key.name with
    | true =>
      have hadd : s.add id key value = .ok (false, s.write id g) := by
        rw [Store.add, hread]
        change g.add key value >>= _ = _
        rw [Group.add, if_pos hhas]
        rfl
      rw [hadd]
      exact .ok ((Store.agrees_write_self hs (Store.read_eq_ok_iff.mp hread)).trans h)
    | false => exact h.add id key value

end View

namespace Store

variable {s s' : Store} {id : GroupId} {key : Key}

/-- Whether the users of objects are up to date and the names in every group different. -/
structure Regular (s : Store) : Prop where
  indexed : s.Indexed
  distinct : s.Every Group.Distinct

namespace Regular

variable (h : s.Regular)

include h

theorem set {value old : Option ObjectRef} (hset : s.set id key value = .ok (old, s')) :
    s'.Regular := by
  have hdistinct := (Change.set hset).every Group.lasting_distinct h.distinct
  obtain ⟨g, g', -, -, rfl⟩ := set_cases hset
  exact ⟨indexed_write h.indexed id g', hdistinct⟩

theorem add {value : Option ObjectRef} {added : Bool}
    (hadd : s.add id key value = .ok (added, s')) : s'.Regular := by
  have hdistinct := (Change.add hadd).every Group.lasting_distinct h.distinct
  obtain ⟨g, g', -, -, rfl⟩ := add_cases hadd
  exact ⟨indexed_write h.indexed id g', hdistinct⟩

theorem settle (held : Held) : (s.settle held).Regular :=
  ⟨indexed_letGo h.indexed held _,
    ((Changes.refl s).letGo held _).every Group.lasting_distinct h.distinct⟩

end Regular

end Store

namespace Access

variable {s s' : Store}

/-! ### Operations -/

/-- Whether everything done by way of one access comes to the same by way of another, each in a
store of its own. -/
structure Matches (a b : Access) (s s' : Store) : Prop where
  get (key : Key) : a.get s key = b.get s' key
  set (key : Key) (value : Option ObjectRef) :
    Tied Store.Agrees (a.set s key value) (b.set s' key value)
  hasKey (key : Key) : a.hasKey s key = b.hasKey s' key
  keys : a.keys s = b.keys s'
  findKey? (name : String) : a.findKey? s name = b.findKey? s' name
  add (key : Key) (value : Option ObjectRef) :
    Tied Store.Agrees (a.add s key value) (b.add s' key value)

/-- **A group by itself is the view of that group alone**, in stores that agree. -/
theorem matches_single (h : s.Agrees s') (hs : s.Regular) (id : GroupId) :
    Matches (direct id) (linked (.single id)) s s' where
  get key := by
    change s.get id key = View.get _ s' key
    rw [View.get_single, Store.get, Store.get, h.read_eq]
  set key value := by
    change Tied _ (s.set id key value) (View.set _ s' key value)
    rw [View.set_single]
    exact h.set id key value
  hasKey key := by
    change _ = View.hasKey _ s' key
    rw [View.hasKey_single, ← h.read_eq]
    rfl
  keys := by
    change _ = View.keys _ s'
    rw [View.keys_single (h.every hs.distinct), ← h.read_eq]
    rfl
  findKey? name := by
    change _ = View.findKey? _ s' name
    rw [View.findKey?_single, ← h.read_eq]
    rfl
  add key value := View.add_single h hs.indexed id key value

/-! ### Requests -/

/-- What can be asked by way of an access. -/
inductive Request where
  | get (key : Key)
  | set (key : Key) (value : Option ObjectRef)
  | hasKey (key : Key)
  | keys
  | findKey (name : String)
  | add (key : Key) (value : Option ObjectRef)

/-- What a request that works is answered with. -/
inductive Reply where
  | value (value : Option ObjectRef)
  | done
  | truth (truth : Bool)
  | keys (keys : List Key)
  | key (key : Option Key)

/-- The reply to a request that changes the store, and the store afterwards: that of before, if the
request fails. -/
def Reply.after {α : Type} (reply : α → Reply) (s : Store) :
    Except Error (α × Store) → Except Error Reply × Store
  | .ok (a, s') => (.ok (reply a), s')
  | .error e => (.error e, s)

/-- Answers a request. -/
def ask (a : Access) (s : Store) : Request → Except Error Reply × Store
  | .get key => ((a.get s key).map .value, s)
  | .set key value => Reply.after (fun _ => .done) s (a.set s key value)
  | .hasKey key => ((a.hasKey s key).map .truth, s)
  | .keys => ((a.keys s).map .keys, s)
  | .findKey name => ((a.findKey? s name).map .key, s)
  | .add key value => Reply.after .truth s (a.add s key value)

/-- Answers requests one after the other.  Each comes with the references that are held outside
the store when it is answered; what nothing refers to then goes. -/
def askAll (a : Access) (s : Store) :
    List (Request × Held) → List (Except Error Reply) × Store
  | [] => ([], s)
  | (request, held) :: rest =>
    let (reply, s) := a.ask s request
    let (replies, s) := a.askAll (s.settle held) rest
    (reply :: replies, s)

/-- Whether two outcomes are the same, in stores that agree. -/
def SameOutcome {α : Type} (r r' : α × Store) : Prop :=
  r.1 = r'.1 ∧ r.2.Agrees r'.2

theorem sameOutcome_after {α : Type} (h : s.Agrees s') {r r' : Except Error (α × Store)}
    (htied : Tied Store.Agrees r r') (reply : α → Reply) :
    SameOutcome (Reply.after reply s r) (Reply.after reply s' r') := by
  cases htied with
  | ok hagrees => exact ⟨rfl, hagrees⟩
  | error e => exact ⟨rfl, h⟩

theorem Matches.ask {a b : Access} (hab : Matches a b s s') (h : s.Agrees s')
    (request : Request) : SameOutcome (a.ask s request) (b.ask s' request) := by
  cases request with
  | get key => exact ⟨congrArg (·.map Reply.value) (hab.get key), h⟩
  | set key value => exact sameOutcome_after h (hab.set key value) _
  | hasKey key => exact ⟨congrArg (·.map Reply.truth) (hab.hasKey key), h⟩
  | keys => exact ⟨congrArg (·.map Reply.keys) hab.keys, h⟩
  | findKey name => exact ⟨congrArg (·.map Reply.key) (hab.findKey? name), h⟩
  | add key value => exact sameOutcome_after h (hab.add key value) _

theorem regular_after {α : Type} (hs : s.Regular) {r : Except Error (α × Store)}
    (hr : ∀ a s', r = .ok (a, s') → s'.Regular) (reply : α → Reply) :
    (Reply.after reply s r).2.Regular := by
  cases r with
  | error e => exact hs
  | ok r => exact hr r.1 r.2 rfl

theorem regular_ask (hs : s.Regular) (id : GroupId) (request : Request) :
    ((direct id).ask s request).2.Regular := by
  cases request with
  | get | hasKey | keys | findKey => exact hs
  | set key value => exact regular_after hs (fun _ _ hset => hs.set hset) _
  | add key value => exact regular_after hs (fun _ _ hadd => hs.add hadd) _

/-- **Any number of requests** come to the same by way of the view. -/
theorem askAll_single (id : GroupId) (requests : List (Request × Held)) (h : s.Agrees s')
    (hs : s.Regular) :
    SameOutcome ((direct id).askAll s requests) ((linked (.single id)).askAll s' requests) := by
  induction requests generalizing s s' with
  | nil => exact ⟨rfl, h⟩
  | cons request requests ih =>
    obtain ⟨request, held⟩ := request
    have hone := (matches_single h hs id).ask h request
    have hrest := ih (hone.2.settle held) ((regular_ask hs id request).settle held)
    exact ⟨congrArg₂ List.cons hone.1 hrest.1, hrest.2⟩

end Access

end Steward

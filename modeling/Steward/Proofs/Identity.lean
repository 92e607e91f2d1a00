/-
Identity: within a session, numbers tell definitions and scripts apart.

Every definition and every script is made under a number of its own, and from then on it is
only passed on: from a table to a draft, to a library, to the catalog and back.  `Recorded`
says so of a session, by means of everything that was ever made (`made`, `written`), which
is never forgotten even if the session drops it.  Every effect keeps it, so

* **`Reachable.recorded`** — it holds of every session there can be;
* **`names_unique_in_any_order`** — names are unique in every catalog, and neither whether
  libraries can be loaded nor what a name then stands for depends on the order of loading.

Design notes: a library can be used by others long after its name was dropped, so what is
in the tables is not enough; `Library.Within` speaks of all libraries that one uses.
-/
import Steward.Proofs.Promises
import Steward.Proofs.SessionEffects
import Steward.Proofs.UniqueNames

namespace Steward

/-! ### Numbers -/

/-- The number under which a definition was made. -/
def Definition.stamp : Definition → Nat
  | type t => t.stamp
  | contract c => c.stamp

theorem Definition.stamp_eq_of_same {d e : Definition} (h : d.same e = true) :
    d.stamp = e.stamp := by
  have hid := (same_iff d e).mp h
  cases d with
  | type t => cases e with
    | type t' => exact Sum.inl.inj hid
    | contract c => cases hid
  | contract c => cases e with
    | type t => cases hid
    | contract c' => exact Sum.inr.inj hid

/-- Whether things are told apart by their numbers, which are all below `n`. -/
structure Numbered {α : Type} (number : α → Nat) (P : α → Prop) (n : Nat) : Prop where
  lt : ∀ x, P x → number x < n
  inj : ∀ x y, P x → P y → number x = number y → x = y

theorem Numbered.mono {α : Type} {number : α → Nat} {P : α → Prop} {n m : Nat}
    (h : Numbered number P n) (hnm : n ≤ m) : Numbered number P m :=
  ⟨fun x hx => Nat.lt_of_lt_of_le (h.lt x hx) hnm, h.inj⟩

/-- One more thing can be told apart if it has the next number. -/
theorem Numbered.insert {α : Type} {number : α → Nat} {P : α → Prop} {n : Nat}
    (h : Numbered number P n) {a : α} (ha : number a = n) :
    Numbered number (fun x => x = a ∨ P x) (n + 1) := by
  refine ⟨?_, ?_⟩
  · rintro x (rfl | hx)
    · omega
    · have := h.lt x hx
      omega
  · rintro x y (rfl | hx) (rfl | hy) hxy
    · rfl
    · -- the numbers of what was there are smaller
      have := h.lt y hy
      omega
    · have := h.lt x hx
      omega
    · exact h.inj x y hx hy hxy

theorem Contract.stamp_of_define {stamp : Nat} {name : Name} {properties : List Key}
    {parents : List Contract} {c : Contract} (h : define stamp name properties parents = .ok c) :
    c.stamp = stamp := by
  unfold define at h
  extract_lets cyclic violations at h
  split at h
  · cases h
    rfl
  · cases h

/-! ### Drafts -/

namespace Draft

theorem define_eq_ok {d d' : Draft} {x : Definition} (h : d.define x = .ok d') :
    d' = { d with registry := ⟨d.registry.definitions ++ [x]⟩ } := by
  obtain ⟨r, hr, h⟩ := bind_eq_ok_iff.mp h
  rw [Registry.register] at hr
  split at hr
  · cases hr
  · cases hr
    cases h
    rfl

theorem addScript_eq_ok {d d' : Draft} {x copy : Script} {stamp : Nat}
    (h : d.addScript x stamp = .ok (copy, d')) :
    copy = x.withStatics stamp d.statics ∧ d' = { d with scripts := d.scripts ++ [copy] } := by
  rw [addScript] at h
  split at h
  · cases h
  · cases h
    exact ⟨rfl, rfl⟩

theorem build_eq_ok {d : Draft} {l : Library} (h : d.build = .ok l) : l = d.library := by
  rw [build] at h
  split at h
  · cases h
  · cases h
    rfl

end Draft

/-! ### Libraries -/

namespace Library

variable {made made' : Definition → Prop} {written written' : Script → Prop}

/-- Whether all definitions and scripts of a library, and of those it uses, were made. -/
def Within (made : Definition → Prop) (written : Script → Prop) (l : Library) : Prop :=
  ∀ m, l.Uses m → (∀ d ∈ m.registry.definitions, made d) ∧ ∀ x ∈ m.scripts, written x

theorem within_iff {l : Library} :
    l.Within made written ↔ (∀ d ∈ l.registry.definitions, made d) ∧ (∀ x ∈ l.scripts, written x) ∧
      ∀ m ∈ l.dependencies, m.Within made written := by
  constructor
  · intro h
    obtain ⟨hdefinitions, hscripts⟩ := h l (.refl l)
    refine ⟨hdefinitions, hscripts, ?_⟩
    intro m hm m' hm'
    exact h m' (uses_iff.mpr (.inr ⟨m, hm, hm'⟩))
  · rintro ⟨hdefinitions, hscripts, hdependencies⟩ m hm
    rcases uses_iff.mp hm with rfl | ⟨d, hd, hdm⟩
    · exact ⟨hdefinitions, hscripts⟩
    · exact hdependencies d hd m hdm

theorem Within.mono {l : Library} (h : l.Within made written) (hmade : ∀ d, made d → made' d)
    (hwritten : ∀ x, written x → written' x) : l.Within made' written' := by
  intro m hm
  obtain ⟨hdefinitions, hscripts⟩ := h m hm
  exact ⟨fun d hd => hmade d (hdefinitions d hd), fun x hx => hwritten x (hscripts x hx)⟩

theorem Within.definitions {l : Library} (h : l.Within made written) :
    ∀ d ∈ l.reachableDefinitions, made d := by
  intro d hd
  obtain ⟨m, hm, hd⟩ := List.mem_flatMap.mp hd
  exact (h m (uses_of_mem_walk hm)).1 d hd

theorem Within.scripts {l : Library} (h : l.Within made written) :
    ∀ x ∈ l.reachableScripts, written x := by
  intro x hx
  obtain ⟨m, hm, hx⟩ := List.mem_flatMap.mp hx
  exact (h m (uses_of_mem_walk hm)).2 x hx

end Library

/-! ### Catalogs -/

namespace Catalog

theorem elim_eq_ok_iff {α : Type} {found : Option α} {e : Error} {x : α} :
    found.elim (.error e) .ok = Except.ok x ↔ found = some x := by
  cases found with
  | none => exact iff_of_false (fun h => by cases h) fun h => by cases h
  | some y => exact ⟨fun h => by cases h; rfl, fun h => by cases h; rfl⟩

variable {c c' : Catalog}

theorem mem_of_resolve {name : Name} {d : Definition} (h : c.resolve name = .ok d) :
    d ∈ c.definitions := by
  rw [resolve_eq, resolve?_eq, elim_eq_ok_iff] at h
  exact List.mem_of_find?_eq_some h

theorem mem_of_resolveScript {name : Name} {x : Script} (h : c.resolveScript name = .ok x) :
    x ∈ c.scripts := by
  rw [resolveScript_eq, resolveScript?_eq, elim_eq_ok_iff] at h
  exact List.mem_of_find?_eq_some h

theorem mem_of_resolveType (hc : c.Unique) {name : Name} {t : ObjectType}
    (h : c.resolveType name = .ok t) : .type t ∈ c.definitions := by
  rw [resolveType_eq, resolveType?_eq hc, resolve?_eq, elim_eq_ok_iff,
    Option.bind_eq_some_iff] at h
  obtain ⟨d, hd, ht⟩ := h
  cases d with
  | type t' =>
    cases ht
    exact List.mem_of_find?_eq_some hd
  | contract _ => cases ht

theorem SameAnswer.eq {α : Type} {same : α → α → Bool} {a b : Except Error α}
    (h : SameAnswer same a b) (hone : ∀ x y, a = .ok x → b = .ok y → same x y = true → x = y) :
    a = b := by
  cases a with
  | error e =>
    cases b with
    | error e' => exact congrArg Except.error h
    | ok y => exact h.elim
  | ok x =>
    cases b with
    | error e' => exact h.elim
    | ok y => exact congrArg Except.ok (hone x y rfl rfl h)

section Within

variable {made : Definition → Prop} {written : Script → Prop}

theorem made_of_mem (h : ∀ l ∈ c.libraries, l.Within made written) {d : Definition}
    (hd : d ∈ c.definitions) : made d := by
  obtain ⟨l, hl, hd⟩ := List.mem_flatMap.mp hd
  exact (h l hl).definitions d hd

theorem written_of_mem (h : ∀ l ∈ c.libraries, l.Within made written) {x : Script}
    (hx : x ∈ c.scripts) : written x := by
  obtain ⟨l, hl, hx⟩ := List.mem_flatMap.mp hx
  exact (h l hl).scripts x hx

/-- Where numbers tell things apart, catalogs that agree give equal answers. -/
theorem Agrees.eq (h : c.Agrees c') (hc : c.Unique) (hc' : c'.Unique) {n : Nat}
    (hmade : Numbered Definition.stamp made n) (hwritten : Numbered Script.stamp written n)
    (hl : ∀ l ∈ c.libraries, l.Within made written)
    (hl' : ∀ l ∈ c'.libraries, l.Within made written) (name : Name) :
    c.resolve name = c'.resolve name ∧ c.resolveType name = c'.resolveType name ∧
      c.resolveScript name = c'.resolveScript name := by
  refine ⟨(h.resolve name).eq ?_, (h.resolveType name).eq ?_, (h.resolveScript name).eq ?_⟩
  · intro d e hd he hsame
    exact hmade.inj d e (made_of_mem hl (mem_of_resolve hd)) (made_of_mem hl' (mem_of_resolve he))
      (Definition.stamp_eq_of_same hsame)
  · intro t t' ht ht' hsame
    have hmem := made_of_mem hl (mem_of_resolveType hc ht)
    have hmem' := made_of_mem hl' (mem_of_resolveType hc' ht')
    exact Definition.type.inj (hmade.inj _ _ hmem hmem' (beq_iff_eq.mp hsame))
  · intro x y hx hy hsame
    exact hwritten.inj x y (written_of_mem hl (mem_of_resolveScript hx))
      (written_of_mem hl' (mem_of_resolveScript hy)) ((Script.same_iff x y).mp hsame)

end Within

end Catalog

/-! ### Sessions -/

/-- What was made in a session, with a number for each thing. -/
structure Session.Recorded (s : Session) (made : Definition → Prop) (written : Script → Prop) :
    Prop where
  definitions : ∀ d ∈ s.definitions, made d
  scripts : ∀ x ∈ s.scripts.values, written x
  drafts : ∀ d ∈ s.drafts.values, d.library.Within made written
  libraries : ∀ l ∈ s.libraries.values, l.Within made written
  catalog : ∀ l ∈ s.catalog.libraries, l.Within made written
  numbered : Numbered Definition.stamp made s.fresh
  scriptsNumbered : Numbered Script.stamp written s.fresh
  unique : s.catalog.Unique

namespace Session

variable {s : Session} {made : Definition → Prop} {written : Script → Prop}

theorem recorded_start (config : Config) :
    (start config).Recorded (fun _ => False) fun _ => False where
  definitions _ hd := absurd hd List.not_mem_nil
  scripts _ hx := absurd hx List.not_mem_nil
  drafts _ hd := absurd hd List.not_mem_nil
  libraries _ hl := absurd hl List.not_mem_nil
  catalog _ hl := absurd hl List.not_mem_nil
  numbered := ⟨fun _ h => h.elim, fun _ _ h => h.elim⟩
  scriptsNumbered := ⟨fun _ h => h.elim, fun _ _ h => h.elim⟩
  unique := Catalog.unique_empty

/-- A new definition has the next number. -/
theorem Recorded.defined (h : s.Recorded made written) {types : Table ObjectType}
    {contracts : Table Contract} (d : Definition) (hd : d.stamp = s.fresh)
    (hs : ∀ e ∈ Session.definitions { s with types, contracts }, e = d ∨ e ∈ s.definitions) :
    Session.Recorded { s with types, contracts, fresh := s.fresh + 1 } (fun e => e = d ∨ made e)
      written := by
  have wider : ∀ {l : Library}, l.Within made written → l.Within (fun e => e = d ∨ made e) written :=
    fun hl => hl.mono (fun _ he => .inr he) fun _ hx => hx
  refine ⟨?_, h.scripts, fun x hx => wider (h.drafts x hx), fun l hl => wider (h.libraries l hl),
    fun l hl => wider (h.catalog l hl), h.numbered.insert hd,
    h.scriptsNumbered.mono (Nat.le_succ _), h.unique⟩
  intro e he
  rcases hs e he with rfl | he
  · exact .inl rfl
  · exact .inr (h.definitions e he)

/-- A new script has the next number, and may go into a draft at once. -/
theorem Recorded.scripted (h : s.Recorded made written) {x : Script} (hx : x.stamp = s.fresh)
    {drafts : Table Draft} (handle : String)
    (hd : ∀ d ∈ drafts.values, d ∈ s.drafts.values ∨
      d.library.Within made fun y => y = x ∨ written y) :
    Session.Recorded { s with drafts, scripts := s.scripts.insert handle x, fresh := s.fresh + 1 }
      made fun y => y = x ∨ written y := by
  have wider : ∀ {l : Library}, l.Within made written → l.Within made fun y => y = x ∨ written y :=
    fun hl => hl.mono (fun _ hd => hd) fun _ hy => .inr hy
  refine ⟨h.definitions, ?_, ?_, fun l hl => wider (h.libraries l hl),
    fun l hl => wider (h.catalog l hl), h.numbered.mono (Nat.le_succ _),
    h.scriptsNumbered.insert hx, h.unique⟩
  · intro y hy
    rcases Table.mem_values_of_insert hy with rfl | hy
    · exact .inl rfl
    · exact .inr (h.scripts y hy)
  · intro d hmem
    rcases hd d hmem with hmem | hd
    · exact wider (h.drafts d hmem)
    · exact hd

/-- Numbers may be drawn. -/
theorem Recorded.later (h : s.Recorded made written) {n : Nat} (hn : s.fresh ≤ n) :
    (s.numbered n).Recorded made written :=
  { h with numbered := h.numbered.mono hn, scriptsNumbered := h.scriptsNumbered.mono hn }

/-- A draft may be put in the place of another if it uses nothing new. -/
theorem Recorded.drafted (h : s.Recorded made written) {d : Draft} (name : String)
    (hd : d.library.Within made written) :
    Session.Recorded { s with drafts := s.drafts.insert name d } made written := by
  refine { h with drafts := ?_ }
  intro x hx
  rcases Table.mem_values_of_insert hx with rfl | hx
  · exact hd
  · exact h.drafts x hx

theorem Recorded.without (h : s.Recorded made written) (name : String) (what : Droppable) :
    (s.without name what).Recorded made written := by
  cases what with
  | builder => exact { h with drafts := fun d hd => h.drafts d (Table.mem_values_of_erase hd) }
  | library =>
    exact { h with libraries := fun l hl => h.libraries l (Table.mem_values_of_erase hl) }
  | object => exact { h with }
  | group => exact { h with }
  | view => exact { h with }
  | thread => exact { h with }
  | lock => exact { h with }
  | pending => exact { h with }

theorem Recorded.loaded (h : s.Recorded made written) {l : Library}
    (known : l ∈ s.libraries.values) {catalog : Catalog} (hload : s.catalog.load l = .ok catalog) :
    Session.Recorded { s with catalog } made written := by
  obtain ⟨rfl, -, hunique⟩ := (Catalog.load_eq_ok_iff h.unique).mp hload
  refine { h with catalog := ?_, unique := hunique }
  intro m hm
  rcases List.mem_append.mp hm with hm | hm
  · exact h.catalog m hm
  · obtain rfl := List.mem_singleton.mp hm
    exact h.libraries m known

/-- A script that the catalog resolves was written before. -/
theorem Recorded.resolved (h : s.Recorded made written) {name : Name} {x : Script}
    (hx : s.catalog.resolveScript name = .ok x) : written x :=
  Catalog.written_of_mem h.catalog (Catalog.mem_of_resolveScript hx)

/-- Every effect keeps what was made apart, of which there may be more afterwards. -/
theorem recorded_effect {s s' : Session} (h : Effect s s')
    (hs : ∃ made written, s.Recorded made written) : ∃ made written, s'.Recorded made written := by
  obtain ⟨made, written, hs⟩ := hs
  cases h with
  | note up => exact ⟨made, written, { hs.later up with }⟩
  | remember _ => exact ⟨made, written, { hs with }⟩
  | lock _ _ => exact ⟨made, written, { hs.later (Nat.le_succ _) with }⟩
  | pass _ => exact ⟨made, written, { hs.later (Nat.le_succ _) with }⟩
  | @contract _ _ _ c _ _ h =>
    refine ⟨_, written, hs.defined (.contract c) (Contract.stamp_of_define h) ?_⟩
    intro e he
    rcases List.mem_append.mp he with he | he
    · exact .inr (List.mem_append_left _ he)
    · obtain ⟨c, hc, rfl⟩ := List.mem_map.mp he
      rcases Table.mem_values_of_insert hc with rfl | hc
      · exact .inl rfl
      · exact .inr (List.mem_append_right _ (List.mem_map_of_mem hc))
  | @type _ t _ _ _ h =>
    have hstamp : t.stamp = s.fresh := by rw [(TypeSpec.build_eq_ok h).1]
    refine ⟨_, written, hs.defined (.type t) hstamp ?_⟩
    intro e he
    rcases List.mem_append.mp he with he | he
    · obtain ⟨t, ht, rfl⟩ := List.mem_map.mp he
      rcases Table.mem_values_of_insert ht with rfl | ht
      · exact .inl rfl
      · exact .inr (List.mem_append_left _ (List.mem_map_of_mem ht))
    · exact .inr (List.mem_append_right _ he)
  | allocate _ => exact ⟨made, written, { hs with }⟩
  | operate _ => exact ⟨made, written, { hs with }⟩
  | enter _ _ => exact ⟨made, written, { hs with }⟩
  | wait _ _ _ _ => exact ⟨made, written, { hs.later (Nat.le_succ _) with }⟩
  | resume _ hs' =>
    subst hs'
    exact ⟨made, written, { hs with }⟩
  | @draft name handle _ =>
    -- a draft begins with nothing in it
    have hempty := hs.drafted (d := ⟨name, [], {}, [], (s.store.allocate ⟨.statics, []⟩).1⟩) handle
      (Library.within_iff.mpr ⟨fun _ hd => absurd hd List.not_mem_nil,
        fun _ hx => absurd hx List.not_mem_nil, fun _ hm => absurd hm List.not_mem_nil⟩)
    exact ⟨made, written, { hempty with }⟩
  | @depend d l builder h known =>
    obtain ⟨hdefinitions, hscripts, hdependencies⟩ :=
      Library.within_iff.mp (hs.drafts d (Table.mem_values_of_find? h))
    refine ⟨made, written, hs.drafted builder ?_⟩
    refine Library.within_iff.mpr ⟨hdefinitions, hscripts, ?_⟩
    intro m hm
    rcases List.mem_append.mp hm with hm | hm
    · exact hdependencies m hm
    · obtain rfl := List.mem_singleton.mp hm
      exact hs.libraries m known
  | @define d d' x builder h known hd =>
    obtain ⟨hdefinitions, hscripts, hdependencies⟩ :=
      Library.within_iff.mp (hs.drafts d (Table.mem_values_of_find? h))
    obtain rfl := Draft.define_eq_ok hd
    refine ⟨made, written, hs.drafted builder ?_⟩
    refine Library.within_iff.mpr ⟨?_, hscripts, hdependencies⟩
    intro e he
    rcases List.mem_append.mp he with he | he
    · exact hdefinitions e he
    · obtain rfl := List.mem_singleton.mp he
      exact hs.definitions e known
  | script h => exact ⟨made, _, hs.scripted h _ fun d hd => .inl hd⟩
  | @addScript d d' x copy builder handle h hd =>
    obtain ⟨hdefinitions, hscripts, hdependencies⟩ :=
      Library.within_iff.mp (hs.drafts d (Table.mem_values_of_find? h))
    obtain ⟨hcopy, rfl⟩ := Draft.addScript_eq_ok hd
    have hstamp : copy.stamp = s.fresh := by
      rw [hcopy]
      rfl
    refine ⟨made, _, hs.scripted hstamp handle ?_⟩
    intro e he
    rcases Table.mem_values_of_insert he with rfl | he
    · -- the draft itself, which may use the copy; the libraries it depends on cannot
      right
      refine Library.within_iff.mpr ⟨hdefinitions, ?_, ?_⟩
      · intro y hy
        rcases List.mem_append.mp hy with hy | hy
        · exact .inr (hscripts y hy)
        · exact .inl (List.mem_singleton.mp hy)
      · exact fun m hm => (hdependencies m hm).mono (fun _ h => h) fun _ h => .inr h
    · exact .inl he
  | @build d l builder handle h hl =>
    obtain rfl := Draft.build_eq_ok hl
    refine ⟨made, written, { hs with drafts := ?_, libraries := ?_ }⟩
    · exact fun e he => hs.drafts e (Table.mem_values_of_erase he)
    · intro m hm
      rcases Table.mem_values_of_insert hm with rfl | hm
      · exact hs.drafts d (Table.mem_values_of_find? h)
      · exact hs.libraries m hm
  | load _ known h => exact ⟨made, written, hs.loaded known h⟩
  | resolve h =>
    -- a script comes back from the catalog under another name, with its old number
    refine ⟨made, written, { hs with scripts := ?_ }⟩
    intro y hy
    rcases Table.mem_values_of_insert hy with rfl | hy
    · exact hs.resolved h
    · exact hs.scripts y hy
  | drop => exact ⟨made, written, hs.without _ _⟩
  | close =>
    exact ⟨made, written, { hs with
      catalog := fun _ hl => absurd hl List.not_mem_nil, unique := Catalog.unique_empty }⟩
  | tidy => exact ⟨made, written, { hs with }⟩

/-- **In every session there can be**, what was made is told apart by its number. -/
theorem Reachable.recorded {s : Session} (h : s.Reachable) :
    ∃ made written, s.Recorded made written :=
  h.induct (fun config => ⟨_, _, recorded_start config⟩) recorded_effect

/-- In one session, things of one name are not only told to be the same: they are equal. -/
theorem Recorded.eq_of_name (h : s.Recorded made written) {M N : Library}
    (hM : M ∈ s.catalog.libraries) (hN : N ∈ s.catalog.libraries) :
    (∀ d ∈ M.reachableDefinitions, ∀ e ∈ N.reachableDefinitions, d.name = e.name → d = e) ∧
      ∀ x ∈ M.reachableScripts, ∀ y ∈ N.reachableScripts, x.name = y.name → x = y := by
  constructor
  · intro d hd e he hn
    have hd' : d ∈ s.catalog.definitions := List.mem_flatMap.mpr ⟨M, hM, hd⟩
    have he' : e ∈ s.catalog.definitions := List.mem_flatMap.mpr ⟨N, hN, he⟩
    have hsame := (Definition.same_iff d e).mpr (h.unique.definitions d hd' e he' hn)
    exact h.numbered.inj d e (Catalog.made_of_mem h.catalog hd')
      (Catalog.made_of_mem h.catalog he') (Definition.stamp_eq_of_same hsame)
  · intro x hx y hy hn
    have hx' : x ∈ s.catalog.scripts := List.mem_flatMap.mpr ⟨M, hM, hx⟩
    have hy' : y ∈ s.catalog.scripts := List.mem_flatMap.mpr ⟨N, hN, hy⟩
    exact h.scriptsNumbered.inj x y (Catalog.written_of_mem h.catalog hx')
      (Catalog.written_of_mem h.catalog hy') (h.unique.scripts x hx' y hy' hn)

/-- In one session, libraries give equal answers in whatever order they were loaded. -/
theorem Recorded.equal_answers (h : s.Recorded made written) {ls ls' : List Library}
    (known : ∀ l ∈ ls, l ∈ s.libraries.values) (hperm : ls.Perm ls') {c : Catalog}
    (hload : ls.foldlM Catalog.load {} = .ok c) :
    ∃ c', ls'.foldlM Catalog.load {} = .ok c' ∧ ∀ name, c.resolve name = c'.resolve name ∧
      c.resolveType name = c'.resolveType name ∧ c.resolveScript name = c'.resolveScript name := by
  obtain ⟨c', hload', hagree⟩ := Catalog.foldlM_load_perm hperm hload
  have loaded : ∀ {ks : List Library} {k : Catalog}, ks.foldlM Catalog.load {} = .ok k →
      k.libraries = ks ∧ k.Unique := by
    intro ks k hk
    obtain ⟨rfl, -, hunique⟩ :=
      (Catalog.foldlM_load_eq_ok_iff Catalog.unique_empty List.nodup_nil).mp hk
    exact ⟨rfl, hunique⟩
  obtain ⟨rfl, hc⟩ := loaded hload
  obtain ⟨rfl, hc'⟩ := loaded hload'
  refine ⟨c', hload', hagree.eq hc hc' h.numbered h.scriptsNumbered ?_ ?_⟩
  · exact fun l hl => h.libraries l (known l hl)
  · exact fun l hl => h.libraries l (known l (hperm.mem_iff.mpr hl))

end Session

/-- **Names are unique, and loading does not depend on the order.**  Whatever libraries are
loaded, and whether it works or not, a name stands for one definition and for one script among
all that is reachable from any two of them.  If libraries can all be loaded in one order, they
can in every order, and every name is answered the same.  In a session there is no difference
between the same and equal, since no two things have the same number. -/
theorem names_unique_in_any_order :
    (∀ ls : List Library, ∀ M ∈ (Catalog.loadEach {} ls).libraries,
      ∀ N ∈ (Catalog.loadEach {} ls).libraries,
        (∀ d ∈ M.reachableDefinitions, ∀ e ∈ N.reachableDefinitions,
          d.name = e.name → d.same e = true) ∧
        ∀ x ∈ M.reachableScripts, ∀ y ∈ N.reachableScripts, x.name = y.name → x.same y = true) ∧
    (∀ (ls ls' : List Library) (c : Catalog), ls.Perm ls' → ls.foldlM Catalog.load {} = .ok c →
      ∃ c', ls'.foldlM Catalog.load {} = .ok c' ∧ c.Agrees c') ∧
    ∀ s : Session, s.Reachable →
      (∀ M ∈ s.catalog.libraries, ∀ N ∈ s.catalog.libraries,
        (∀ d ∈ M.reachableDefinitions, ∀ e ∈ N.reachableDefinitions, d.name = e.name → d = e) ∧
        ∀ x ∈ M.reachableScripts, ∀ y ∈ N.reachableScripts, x.name = y.name → x = y) ∧
      ∀ (ls ls' : List Library) (c : Catalog), (∀ l ∈ ls, l ∈ s.libraries.values) →
        ls.Perm ls' → ls.foldlM Catalog.load {} = .ok c →
        ∃ c', ls'.foldlM Catalog.load {} = .ok c' ∧ ∀ name, c.resolve name = c'.resolve name ∧
          c.resolveType name = c'.resolveType name ∧
          c.resolveScript name = c'.resolveScript name := by
  refine ⟨?_, fun ls ls' c hperm hload => Catalog.foldlM_load_perm hperm hload, ?_⟩
  · intro ls M hM N hN
    have hunique := Catalog.unique_loadEach Catalog.unique_empty ls
    constructor
    · intro d hd e he hn
      exact (Definition.same_iff d e).mpr (hunique.definitions d (List.mem_flatMap.mpr ⟨M, hM, hd⟩)
        e (List.mem_flatMap.mpr ⟨N, hN, he⟩) hn)
    · intro x hx y hy hn
      exact (Script.same_iff x y).mpr (hunique.scripts x (List.mem_flatMap.mpr ⟨M, hM, hx⟩)
        y (List.mem_flatMap.mpr ⟨N, hN, hy⟩) hn)
  · intro s hs
    obtain ⟨made, written, hs⟩ := hs.recorded
    exact ⟨fun M hM N hN => hs.eq_of_name hM hN,
      fun ls ls' c known hperm hload => hs.equal_answers known hperm hload⟩

namespace Shared

def point : ObjectType := ⟨0, ⟨"Point"⟩, none, [], [], [], none, none⟩

def base : Library := ⟨"base", [], ⟨[.type point]⟩, [], 0⟩

def left : Library := ⟨"left", [base], {}, [], 1⟩

def right : Library := ⟨"right", [base], {}, [], 2⟩

end Shared

/-- Two libraries that use a third can be loaded in both orders. -/
theorem names_unique_in_any_order_shared :
    [Shared.left, Shared.right].foldlM Catalog.load {} = .ok ⟨[Shared.left, Shared.right]⟩ ∧
      ∃ c', [Shared.right, Shared.left].foldlM Catalog.load {} = .ok c' ∧
        Catalog.Agrees ⟨[Shared.left, Shared.right]⟩ c' :=
  ⟨rfl, names_unique_in_any_order.2.1 _ _ _ (.swap Shared.right Shared.left []) rfl⟩

end Steward

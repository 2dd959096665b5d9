import Bookkeeping.Proofs.Subtotal.Balances
import Bookkeeping.Proofs.Subtotal.Grouping
import Bookkeeping.Proofs.Subtotal.KeyOrder

set_option autoImplicit false

/-! # Finished groups

`Tree.Shows` is what the invariant of a group under construction becomes when the group is
finished and no groups are dropped. It tells of every path of keys whether it leads to a group,
and which entries that group shows. -/

namespace Bookkeeping.Subtotal

/-- A finished group with so many levels below it shows entries: at the last level their running
    balance, above it the groups that they lead into. -/
def Tree.Shows (spec : Spec) : Nat → List Entry → Tree → Prop
  | 0, es, t =>
      t.children = [] ∧
        Group.readings spec.series ((taken es).map (·.movement)) = .ok t.readings ∧
        Sums es t.fund
  | levels + 1, es, t =>
      t.readings = [] ∧ t.children.map (·.key) = firstKeys es ∧
        (∀ child ∈ t.children, child.Shows spec levels (within child.key es)) ∧ Sums es t.fund

/-- What a finished group looks like, whatever it was made of: a last-level group has the running
    balance of some movements and nothing below it; above that there are no readings, and siblings
    have different keys, each of them a key of the level below. -/
def Tree.WellFormed (mode : SeriesMode) : List Level → Tree → Prop
  | [], t => t.children = [] ∧ ∃ movements, Group.readings mode movements = .ok t.readings
  | level :: rest, t =>
      t.readings = [] ∧ (t.children.map (·.key)).Nodup ∧
        ∀ child ∈ t.children,
          (∃ p : Posting, child.key = Key.of level p) ∧ child.WellFormed mode rest

/-! ## What finishing a group gives -/

namespace Group

variable {spec : Spec} {levels : Nat} {es : List Entry} {g : Group} {isRoot : Bool}

/-- Finishing looks at the request for whether to drop groups and for what to read. -/
theorem finish_congr {other : Spec} (hprunes : spec.prunes = other.prunes)
    (hseries : spec.series = other.series) (isRoot : Bool) (g : Group) :
    g.finish spec isRoot levels = g.finish other isRoot levels := by
  induction levels generalizing g isRoot with
  | zero => rw [finish, finish, hprunes, hseries]
  | succ levels ih =>
      have hbelow : finish spec false levels = finish other false levels := funext fun _ => ih _ _
      rw [finish, finish, hprunes, hbelow]

theorem finish_zero_eq_some {t : Tree} (h : g.finish spec isRoot 0 = .ok (some t)) :
    ∃ readings, Group.readings spec.series g.movements = .ok readings ∧
      t = ⟨g.key, g.fund, [], readings⟩ := by
  rw [Group.finish] at h
  split at h
  · cases h
  · obtain ⟨readings, hreadings, ht⟩ := bind_eq_ok.1 h
    cases ht
    exact ⟨readings, hreadings, rfl⟩

/-- A group above the last level keeps its key; its sum is a new one where groups are dropped. -/
theorem finish_succ_eq_some {t : Tree} (h : g.finish spec isRoot (levels + 1) = .ok (some t)) :
    ∃ fund children, t = ⟨g.key, fund, children, []⟩ ∧
      g.children.filterMapM (finish spec false levels) = .ok children ∧
      (spec.prunes = false → fund = g.fund) ∧
      (spec.prunes = true → Decimal.checkedSum (children.map (·.fund)) = .ok fund) := by
  rw [Group.finish] at h
  obtain ⟨children, hchildren, hresult⟩ := bind_eq_ok.1 h
  split at hresult
  · cases hresult
  · dsimp only at hresult
    split at hresult
    · next hprunes =>
        obtain ⟨fund, hfund, ht⟩ := bind_eq_ok.1 hresult
        cases ht
        exact ⟨fund, children, rfl, hchildren, fun hkeep => absurd hkeep (by simp [hprunes]),
          fun _ => hfund⟩
    · next hkeep =>
        cases hresult
        exact ⟨g.fund, children, rfl, hchildren, fun _ => rfl, fun hprunes => absurd hprunes hkeep⟩

/-- The group of everything is never dropped. -/
theorem finish_root {tree? : Option Tree} (h : g.finish spec true levels = .ok tree?) :
    ∃ t, tree? = some t := by
  cases levels with
  | zero =>
      rw [Group.finish, Bool.not_true, Bool.and_false] at h
      obtain ⟨readings, _, ht⟩ := bind_eq_ok.1 h
      cases ht
      exact ⟨_, rfl⟩
  | succ levels =>
      rw [Group.finish, Bool.not_true, Bool.and_false] at h
      obtain ⟨children, _, hresult⟩ := bind_eq_ok.1 h
      rw [Bool.false_and, if_neg Bool.false_ne_true] at hresult
      dsimp only at hresult
      split at hresult
      · obtain ⟨fund, _, ht⟩ := bind_eq_ok.1 hresult
        cases ht
        exact ⟨_, rfl⟩
      · cases hresult
        exact ⟨_, rfl⟩

/-- A subtotal is the group of everything, finished when it holds all postings. -/
theorem holds_of_ofPostings {rates : RateLookup} {entries : List (Posting × Decimal)} {tree : Tree}
    (h : ofPostings spec rates entries = .ok tree) :
    ∃ (root : Group) (records : List (Posting × Decimal)),
      spec.convertAll rates entries = .ok records ∧ root.key = .root ∧
      root.Holds spec.effectiveLevels.length (spec.entriesOf records) ∧
      root.finish spec true spec.effectiveLevels.length = .ok (some tree) := by
  obtain ⟨all, hall, hrest⟩ := bind_eq_ok.1 h
  obtain ⟨tree?, hfinish, htree⟩ := bind_eq_ok.1 hrest
  obtain ⟨t, rfl⟩ := finish_root hfinish
  cases htree
  obtain ⟨records, hrecords, hkey, hholds⟩ := holds_enterAll (Grouping.holds_empty _) hall
  exact ⟨all.root, records, hrecords, hkey, hholds, hfinish⟩

/-! ## Finishing keeps what a group holds -/

/-- Where no groups are dropped, a finished group shows what it held under construction. -/
theorem Holds.finish (hkeep : spec.prunes = false) (h : g.Holds levels es) {tree? : Option Tree}
    (hfinish : g.finish spec isRoot levels = .ok tree?) :
    ∃ t, tree? = some t ∧ t.key = g.key ∧ t.Shows spec levels es := by
  induction levels generalizing es g isRoot tree? with
  | zero =>
      obtain ⟨_, hmovements, _, hsums⟩ := h
      rw [Group.finish, hkeep] at hfinish
      obtain ⟨readings, hreadings, hresult⟩ := bind_eq_ok.1 hfinish
      cases hresult
      exact ⟨_, rfl, rfl, rfl, hmovements ▸ hreadings, hsums⟩
  | succ levels ih =>
      obtain ⟨hlists, hsums⟩ := h
      rw [Group.finish, hkeep] at hfinish
      obtain ⟨children, hchildren, hresult⟩ := bind_eq_ok.1 hfinish
      cases hresult
      obtain ⟨pairs, hgroups, rfl, hpairs⟩ :=
        pairs_of_filterMapM (fun child hmem _ => ih (hlists.holds child hmem)) hchildren
      refine ⟨_, rfl, rfl, rfl, ?_, ?_, hsums⟩
      · rw [← hlists.keys_eq, ← hgroups, List.map_map, List.map_map]
        exact List.map_congr_left fun pair hpair => (hpairs pair hpair).1
      · intro t ht
        obtain ⟨pair, hpair, rfl⟩ := List.mem_map.1 ht
        obtain ⟨hkey, hshows⟩ := hpairs pair hpair
        rw [hkey]
        exact hshows

/-- A group can be finished where the running balances of all its parts exist. -/
theorem Holds.finish_ok (hkeep : spec.prunes = false) (h : g.Holds levels es)
    (hread : ∀ part : List Movement, (part.map (·.2)).Sublist (amounts es) →
      ∃ readings, Group.readings spec.series part = .ok readings) :
    ∃ tree?, g.finish spec isRoot levels = .ok tree? := by
  induction levels generalizing es g isRoot with
  | zero =>
      have hsub : (g.movements.map (·.2)).Sublist (amounts es) := by
        rw [h.2.1, List.map_map]
        exact (taken_sublist es).map _
      obtain ⟨readings, hreadings⟩ := hread _ hsub
      rw [Group.finish, hkeep]
      exact ⟨_, bind_eq_ok.2 ⟨readings, hreadings, rfl⟩⟩
  | succ levels ih =>
      have hchild : ∀ child ∈ g.children, ∃ tree?, child.finish spec false levels = .ok tree? := by
        intro child hmem
        refine ih (h.1.holds child hmem) ?_
        intro part hpart
        exact hread part (hpart.trans (amounts_within_sublist child.key es))
      obtain ⟨children, hchildren⟩ := filterMapM_ok hchild
      rw [Group.finish, hkeep]
      exact ⟨_, bind_eq_ok.2 ⟨children, hchildren, rfl⟩⟩

/-- A finished group is well-formed, also where groups are dropped. -/
theorem Holds.wellFormed {levels : List Level} (h : g.Holds levels.length es)
    (hkeys : ∀ e ∈ es, ∃ p : Posting, e.keys = levels.map (Key.of · p)) {t : Tree}
    (hfinish : g.finish spec isRoot levels.length = .ok (some t)) :
    t.key = g.key ∧ t.WellFormed spec.series levels := by
  induction levels generalizing es g isRoot t with
  | nil =>
      obtain ⟨readings, hreadings, rfl⟩ := finish_zero_eq_some hfinish
      exact ⟨rfl, rfl, g.movements, hreadings⟩
  | cons level rest ih =>
      obtain ⟨hlists, _⟩ := h
      obtain ⟨fund, children, rfl, hchildren, _, _⟩ := finish_succ_eq_some hfinish
      obtain ⟨pairs, hsub, rfl, hpairs⟩ := kept_of_filterMapM hchildren
      have hbelow : ∀ pair ∈ pairs, pair.2.key = pair.1.key ∧
          (∃ p : Posting, pair.1.key = Key.of level p) ∧ pair.2.WellFormed spec.series rest := by
        intro pair hpair
        have hmem := hsub.subset (List.mem_map_of_mem hpair)
        have hinner : ∀ e ∈ within pair.1.key es, ∃ p : Posting,
            pair.1.key = Key.of level p ∧ e.keys = rest.map (Key.of · p) := by
          intro inner hinner
          obtain ⟨e, he, hin⟩ := mem_within.1 hinner
          obtain ⟨p, hp⟩ := hkeys e he
          rw [(within?_eq_some.1 hin).1, List.map_cons, List.cons.injEq] at hp
          exact ⟨p, hp⟩
        obtain ⟨hkey, hformed⟩ := ih (hlists.holds _ hmem)
          (fun e he => (hinner e he).imp fun p hp => hp.2) (hpairs pair hpair)
        refine ⟨hkey, ?_, hformed⟩
        have hfirst : pair.1.key ∈ firstKeys es := by
          rw [← hlists.keys_eq]
          exact List.mem_map_of_mem hmem
        obtain ⟨e, he⟩ := List.exists_mem_of_ne_nil _ (mem_firstKeys.1 hfirst)
        exact (hinner e he).imp fun p hp => hp.1
      -- the keys left are some of those of the groups under construction
      have hleft : (pairs.map Prod.snd).map (·.key) = (pairs.map Prod.fst).map (·.key) := by
        rw [List.map_map, List.map_map]
        exact List.map_congr_left fun pair hpair => (hbelow pair hpair).1
      refine ⟨rfl, rfl, ?_, ?_⟩
      · show ((pairs.map Prod.snd).map (·.key)).Nodup
        rw [hleft]
        refine (nodup_firstKeys es).sublist ?_
        rw [← hlists.keys_eq]
        exact hsub.map _
      · intro child hchild
        obtain ⟨pair, hpair, rfl⟩ := List.mem_map.1 hchild
        obtain ⟨hkey, hlevel, hformed⟩ := hbelow pair hpair
        exact ⟨hkey ▸ hlevel, hformed⟩

end Group

theorem wellFormed_ofPostings {spec : Spec} {rates : RateLookup}
    {entries : List (Posting × Decimal)} {tree : Tree}
    (h : ofPostings spec rates entries = .ok tree) :
    tree.WellFormed spec.series spec.effectiveLevels := by
  obtain ⟨_, records, _, _, hholds, hfinish⟩ := Group.holds_of_ofPostings h
  refine (hholds.wellFormed ?_ hfinish).2
  intro e he
  obtain ⟨r, _, rfl⟩ := List.mem_map.1 he
  exact ⟨r.1, rfl⟩

theorem Tree.WellFormed.distinctSiblings {mode : SeriesMode} {levels : List Level} {t : Tree}
    (h : t.WellFormed mode levels) : t.DistinctSiblings levels.length := by
  induction levels generalizing t with
  | nil => trivial
  | cons level rest ih =>
      obtain ⟨_, hnodup, hchildren⟩ := h
      exact ⟨hnodup, fun child hchild => ih (hchildren child hchild).2⟩

/-- Siblings have different keys in every subtotal. -/
theorem distinctSiblings_ofPostings {spec : Spec} {rates : RateLookup}
    {entries : List (Posting × Decimal)} {tree : Tree}
    (h : ofPostings spec rates entries = .ok tree) :
    tree.DistinctSiblings spec.effectiveLevels.length :=
  (wellFormed_ofPostings h).distinctSiblings

/-! ## Paths through a finished group -/

namespace Tree

variable {spec : Spec} {levels : Nat} {es : List Entry} {t : Tree}

theorem Shows.sums (h : t.Shows spec levels es) : Sums es t.fund := by
  cases levels with
  | zero => exact h.2.2
  | succ levels => exact h.2.2.2

theorem Shows.child?_eq_some (h : t.Shows spec (levels + 1) es) {key : Key} {child : Tree}
    (hchild : t.child? key = some child) : child.Shows spec levels (within key es) := by
  have hkey : child.key = key := by simpa using List.find?_some hchild
  rw [← hkey]
  exact h.2.2.1 child (List.mem_of_find?_eq_some hchild)

theorem Shows.isSome_child? (h : t.Shows spec (levels + 1) es) (key : Key) :
    (t.child? key).isSome = true ↔ within key es ≠ [] := by
  rw [← mem_firstKeys, ← h.2.1, child?, List.find?_isSome, List.mem_map]
  simp

theorem withinPath_nil (path : List Key) : withinPath path [] = [] := by
  induction path with
  | nil => rfl
  | cons key rest ih => exact ih

/-- The group at the end of a path shows the entries whose keys begin with that path. -/
theorem Shows.descend?_eq_some (h : t.Shows spec levels es) {path : List Key}
    (hlength : path.length ≤ levels) {node : Tree} (hnode : t.descend? path = some node) :
    node.Shows spec (levels - path.length) (withinPath path es) := by
  induction path generalizing t levels es with
  | nil =>
      cases hnode
      exact h
  | cons key rest ih =>
      obtain ⟨child, hchild, hrest⟩ := Option.bind_eq_some_iff.1 hnode
      cases levels with
      | zero => cases hlength
      | succ levels =>
          rw [List.length_cons, Nat.add_sub_add_right]
          exact ih (h.child?_eq_some hchild) (Nat.le_of_succ_le_succ hlength) hrest

/-- No path leads below the last level. -/
theorem Shows.length_le (h : t.Shows spec levels es) {path : List Key} {node : Tree}
    (hnode : t.descend? path = some node) : path.length ≤ levels := by
  induction path generalizing t levels es with
  | nil => exact Nat.zero_le levels
  | cons key rest ih =>
      obtain ⟨child, hchild, hrest⟩ := Option.bind_eq_some_iff.1 hnode
      cases levels with
      | zero =>
          rw [child?, h.1] at hchild
          cases hchild
      | succ levels => exact Nat.succ_le_succ (ih (h.child?_eq_some hchild) hrest)

/-- Groups that show entries with the same keys have the same groups below them, in the same
    order. -/
theorem Shows.sameKeys {otherSpec : Spec} {other : Tree} {others : List Entry}
    (h : t.Shows spec levels es) (hother : other.Shows otherSpec levels others)
    (hkeys : es.map (·.keys) = others.map (·.keys)) (path : List Key) :
    (t.descend? path).map (·.children.map (·.key)) =
      (other.descend? path).map (·.children.map (·.key)) := by
  induction path generalizing t other levels es others with
  | nil =>
      cases levels with
      | zero => simp [descend?, h.1, hother.1]
      | succ levels =>
          have hfirst : firstKeys es = firstKeys others := firstKeys_congr hkeys
          simp [descend?, h.2.1, hother.2.1, hfirst]
  | cons key rest ih =>
      cases levels with
      | zero => simp [descend?, child?, h.1, hother.1]
      | succ levels =>
          have hbelow := map_keys_within key hkeys
          have hsome : (t.child? key).isSome = true ↔ (other.child? key).isSome = true := by
            rw [h.isSome_child?, hother.isSome_child?, Ne, Ne,
              ← List.map_eq_nil_iff (f := Entry.keys), hbelow, List.map_eq_nil_iff]
          rw [descend?, descend?]
          cases hchild : t.child? key with
          | none =>
              have hnone : other.child? key = none := by simpa [hchild] using hsome
              rw [hnone, Option.bind_none]
          | some child =>
              rw [hchild] at hsome
              obtain ⟨otherChild, hotherChild⟩ := Option.isSome_iff_exists.1 (hsome.1 rfl)
              rw [hotherChild]
              exact ih (h.child?_eq_some hchild) (hother.child?_eq_some hotherChild) hbelow

/-- A path leads to a group if it is empty or the keys of some entry begin with it. -/
theorem Shows.isSome_descend? (h : t.Shows spec levels es) {path : List Key}
    (hlength : path.length ≤ levels) :
    (t.descend? path).isSome = true ↔ path = [] ∨ withinPath path es ≠ [] := by
  induction path generalizing t levels es with
  | nil => simp [descend?]
  | cons key rest ih =>
      cases levels with
      | zero => cases hlength
      | succ levels =>
          have hchild := h.isSome_child? key
          rw [descend?, withinPath]
          cases hfind : t.child? key with
          | none =>
              have hempty : within key es = [] := by simpa [hfind] using hchild
              simp [hempty, withinPath_nil]
          | some child =>
              have hne : within key es ≠ [] := by simpa [hfind] using hchild
              have hrest := ih (h.child?_eq_some hfind) (Nat.le_of_succ_le_succ hlength)
              rw [Option.bind_some, hrest]
              constructor
              · rintro (rfl | hpath)
                · exact .inr hne
                · exact .inr hpath
              · rintro (hnil | hpath)
                · cases hnil
                · exact .inr hpath

end Tree

end Bookkeeping.Subtotal

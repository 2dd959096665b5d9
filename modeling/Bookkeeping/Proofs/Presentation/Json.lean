import Bookkeeping.Presentation.Json
import Bookkeeping.Proofs.Subtotal.KeyLabels
import Bookkeeping.Proofs.Subtotal.ReadingDates
import Bookkeeping.Proofs.Subtotal.GroupBy

set_option autoImplicit false

/-! # What JSON loses of a subtotal

Groups and readings stand in objects by name, and an object keeps one member for each name.
`Renders` says that nothing is lost: the members of an object are those of the groups below, one
each, by different names. Whether that is so depends on one pair of siblings only: a group without
a content, or a remark, is named like the group whose content is the label of the undated bucket.
All other siblings have different names, whatever their level, and so have readings. -/

namespace Bookkeeping

/-! ## Objects made from lists -/

namespace Json.Members

theorem put_of_not_mem {members : Members} {name : String} (value : Json)
    (h : name ∉ members.map Prod.fst) : put members name value = members ++ [(name, value)] := by
  induction members with
  | nil => rfl
  | cons member rest ih =>
      obtain ⟨n, v⟩ := member
      rw [List.map_cons, List.mem_cons, not_or] at h
      rw [put, if_neg (Ne.symm h.1), ih h.2, List.cons_append]

theorem length_put_of_mem {members : Members} {name : String} (value : Json)
    (h : name ∈ members.map Prod.fst) : (put members name value).length = members.length := by
  induction members with
  | nil => cases h
  | cons member rest ih =>
      obtain ⟨n, v⟩ := member
      rw [put]
      split
      · rfl
      · next hn =>
          rw [List.map_cons, List.mem_cons] at h
          rw [List.length_cons, ih (h.resolve_left (Ne.symm hn)), List.length_cons]

/-- Members put into others one after another. -/
def putAll (members : Members) (entries : List (String × Json)) : Members :=
  entries.foldl (fun members (name, value) => put members name value) members

theorem putAll_cons (members : Members) (name : String) (value : Json)
    (entries : List (String × Json)) :
    putAll members ((name, value) :: entries) = putAll (put members name value) entries := rfl

/-- Members of different names all stay, in their order. -/
theorem putAll_of_nodup {members : Members} {entries : List (String × Json)}
    (h : ((members ++ entries).map Prod.fst).Nodup) :
    putAll members entries = members ++ entries := by
  induction entries generalizing members with
  | nil => exact (List.append_nil members).symm
  | cons entry rest ih =>
      obtain ⟨name, value⟩ := entry
      have hnew : name ∉ members.map Prod.fst := by
        rw [List.map_append, List.map_cons, List.nodup_append] at h
        exact fun hmem => h.2.2 name hmem name List.mem_cons_self rfl
      rw [putAll_cons, put_of_not_mem value hnew, ih (by simpa using h), List.append_assoc]
      rfl

theorem length_putAll_le (members : Members) (entries : List (String × Json)) :
    (putAll members entries).length ≤ members.length + entries.length := by
  induction entries generalizing members with
  | nil => exact Nat.le_refl _
  | cons entry rest ih =>
      obtain ⟨name, value⟩ := entry
      have hput : (put members name value).length ≤ members.length + 1 := by
        by_cases hmem : name ∈ members.map Prod.fst
        · rw [length_put_of_mem value hmem]
          exact Nat.le_succ _
        · rw [put_of_not_mem value hmem, List.length_append]
          rfl
      have hrest := ih (put members name value)
      rw [putAll_cons, List.length_cons]
      omega

/-- A name that comes twice costs a member. -/
theorem nodup_of_length_putAll {members : Members} {entries : List (String × Json)}
    (hmembers : (members.map Prod.fst).Nodup)
    (h : (putAll members entries).length = members.length + entries.length) :
    ((members ++ entries).map Prod.fst).Nodup := by
  induction entries generalizing members with
  | nil => rwa [List.append_nil]
  | cons entry rest ih =>
      obtain ⟨name, value⟩ := entry
      rw [putAll_cons, List.length_cons] at h
      by_cases hmem : name ∈ members.map Prod.fst
      · have hless := length_putAll_le (put members name value) rest
        rw [length_put_of_mem value hmem] at hless
        omega
      · rw [put_of_not_mem value hmem] at h
        have hnodup : ((members ++ [(name, value)]).map Prod.fst).Nodup := by
          rw [List.map_append, List.nodup_append]
          refine ⟨hmembers, List.nodup_singleton name, ?_⟩
          intro a ha b hb heq
          have hname : a = name := heq.trans (List.mem_singleton.1 hb)
          exact hmem (hname ▸ ha)
        have hall := ih hnodup (by rw [h, List.length_append, List.length_singleton]; omega)
        rwa [List.append_assoc] at hall

theorem ofList_eq_putAll (entries : List (String × Json)) : ofList entries = putAll [] entries :=
  rfl

theorem ofList_of_nodup {entries : List (String × Json)} (h : (entries.map Prod.fst).Nodup) :
    ofList entries = entries := by
  rw [ofList_eq_putAll, putAll_of_nodup (by rwa [List.nil_append]), List.nil_append]

theorem nodup_of_length_ofList {entries : List (String × Json)}
    (h : (ofList entries).length = entries.length) : (entries.map Prod.fst).Nodup := by
  rw [ofList_eq_putAll] at h
  have hnil : (([] : Members).map Prod.fst).Nodup := List.nodup_nil
  exact nodup_of_length_putAll hnil (h.trans (Nat.zero_add _).symm)

end Json.Members

namespace Presentation

open Subtotal (Key Level Tree Visit Walk Spec)

/-! ## Names of groups -/

/-- The name that the group of a key stands by at a level. -/
def keyName (level : Level) : Key → String
  | .content none | .remark none => Granularity.undatedLabel
  | key => key.label (level.granularity?.getD .day)

theorem memberName_eq {v : Visit} {level : Level} (h : v.level = some level) :
    memberName v = keyName level v.tree.key := by
  unfold memberName keyName Visit.label
  rw [h]
  cases v.tree.key with
  | content text => cases text <;> rfl
  | remark text => cases text <;> rfl
  | _ => rfl

/-- A missing content or remark does not stand beside the one that is named like it. -/
def NullsApart (keys : List Key) : Prop :=
  ¬ (.content none ∈ keys ∧ .content (some Granularity.undatedLabel) ∈ keys) ∧
    ¬ (.remark none ∈ keys ∧ .remark (some Granularity.undatedLabel) ∈ keys)

/-- A missing text and one that is named like it are not both there, so equal names mean equal
    texts. -/
theorem eq_of_textName {keys : List Key} {wrap : Option String → Key} {a b : Option String}
    (hapart : ¬ (wrap none ∈ keys ∧ wrap (some Granularity.undatedLabel) ∈ keys))
    (ha : wrap a ∈ keys) (hb : wrap b ∈ keys)
    (h : a.getD Granularity.undatedLabel = b.getD Granularity.undatedLabel) : a = b := by
  cases a with
  | none =>
      cases b with
      | none => rfl
      | some b => exact absurd ⟨ha, (show Granularity.undatedLabel = b from h) ▸ hb⟩ hapart
  | some a =>
      cases b with
      | none => exact absurd ⟨hb, (show a = Granularity.undatedLabel from h) ▸ ha⟩ hapart
      | some b => exact congrArg some h

theorem keyName_content (a : Option String) :
    keyName .content (.content a) = a.getD Granularity.undatedLabel := by
  cases a <;> rfl

theorem keyName_remark (a : Option String) :
    keyName .remark (.remark a) = a.getD Granularity.undatedLabel := by
  cases a <;> rfl

/-- Keys of one level have different names, a missing text and its label aside. -/
theorem keyName_injective {level : Level} {p q : Posting} {keys : List Key}
    (hapart : NullsApart keys) (hp : Key.of level p ∈ keys) (hq : Key.of level q ∈ keys)
    (h : keyName level (Key.of level p) = keyName level (Key.of level q)) :
    Key.of level p = Key.of level q := by
  cases level with
  | currency => exact congrArg Key.currency h
  | user => exact congrArg Key.user h
  | title => exact congrArg Key.title (Key.label_title_injective .day h)
  | subTitle => exact congrArg Key.subTitle (Key.label_subTitle_injective .day h)
  | content =>
      simp only [Key.of, keyName_content] at h
      exact congrArg Key.content (eq_of_textName hapart.1 hp hq h)
  | remark =>
      simp only [Key.of, keyName_remark] at h
      exact congrArg Key.remark (eq_of_textName hapart.2 hp hq h)
  | date g =>
      have hstart (date : Option Date) : ∀ d ∈ date.map g.start, g.IsStart d := by
        intro d hd
        obtain ⟨day, _, rfl⟩ := Option.map_eq_some_iff.1 hd
        exact g.isStart_start day
      exact congrArg Key.date (Granularity.label_injective (hstart p.date) (hstart q.date) h)

/-- Siblings have different names exactly where missing texts stand apart from their label. -/
theorem nodup_keyNames_iff {level : Level} {keys : List Key} (hnodup : keys.Nodup)
    (hlevel : ∀ key ∈ keys, ∃ p : Posting, key = Key.of level p) :
    (keys.map (keyName level)).Nodup ↔ NullsApart keys := by
  constructor
  · intro h
    have hinj := List.inj_on_of_nodup_map h
    refine ⟨fun hcontent => ?_, fun hremark => ?_⟩
    · obtain ⟨p, hp⟩ := hlevel _ hcontent.1
      cases level with
      | content => exact absurd (hinj hcontent.1 hcontent.2 rfl) (by simp)
      | _ => cases hp
    · obtain ⟨p, hp⟩ := hlevel _ hremark.1
      cases level with
      | remark => exact absurd (hinj hremark.1 hremark.2 rfl) (by simp)
      | _ => cases hp
  · intro hapart
    rw [List.Nodup, List.pairwise_map]
    refine (show keys.Pairwise (· ≠ ·) from hnodup).imp_of_mem ?_
    intro a b ha hb hne heq
    obtain ⟨p, rfl⟩ := hlevel a ha
    obtain ⟨q, rfl⟩ := hlevel b hb
    exact hne (keyName_injective hapart ha hb heq)

/-! ## Renderings -/

/-- A value that shows all of a group: its sum, and by different names one member for each group
    below, which shows all of that group, or for each reading. -/
def Renders (interval : Option Granularity) : List Level → Tree → Json → Prop
  | [], t, value =>
      match interval with
      | none => value = .object [("value", number t.fund)]
      | some g =>
          value = .object [("value", number t.fund), ("aggr", .object (t.readings.map fun r =>
            (g.label r.date, .object [("value", number r.fund)])))] ∧
          (t.readings.map fun r => g.label r.date).Nodup
  | level :: rest, t, value =>
      ∃ members : Json.Members,
        value = .object [("value", number t.fund), (level.fieldName, .object members)] ∧
        (members.map Prod.fst).Nodup ∧
        List.Forall₂ (fun child member => member.1 = keyName level child.key ∧
          Renders interval rest child member.2) t.children members

/-- Nowhere in a tree, so many levels below the top, does a missing text stand beside its label. -/
def TreeNullsApart : Nat → Tree → Prop
  | 0, _ => True
  | levels + 1, t =>
      NullsApart (t.children.map (·.key)) ∧ ∀ child ∈ t.children, TreeNullsApart levels child

theorem fieldName_ne_value (level : Level) : level.fieldName ≠ "value" := by
  cases level <;> simp [Level.fieldName]

/-- What lies below a group stands behind its fund. -/
theorem combine_eq {v : Visit} {field : String} (hfield : belowField? v.below = some field)
    (hne : field ≠ "value") (results : List (String × Json)) :
    jsonWalk.combine () v results = (memberName v, .object [("value", number v.tree.fund),
      (field, .object (Json.Members.ofList results))]) := by
  simp only [jsonWalk, hfield, Option.elim_some, fundMembers]
  rw [Json.Members.put, if_neg (Ne.symm hne)]
  rfl

/-- The object of a group holds the members of those below it. -/
theorem runFrom_level (interval : Option Granularity) (level : Level) (rest : List Level)
    {v : Visit} (hbelow : v.below = .level level) :
    jsonWalk.runFrom interval (level :: rest) () v =
      (memberName v, .object [("value", number v.tree.fund), (level.fieldName,
        .object (Json.Members.ofList (v.tree.children.map fun child =>
          jsonWalk.runFrom interval rest ()
            ⟨child, v.depth + 1, some level, Subtotal.below rest interval⟩)))]) := by
  have hfield : belowField? v.below = some level.fieldName := by rw [hbelow, belowField?]
  rw [Walk.runFrom_cons, combine_eq hfield (fieldName_ne_value level)]
  rfl

theorem runFrom_interval (g : Granularity) {v : Visit} (hbelow : v.below = .readings g) :
    jsonWalk.runFrom (some g) [] () v =
      (memberName v, .object [("value", number v.tree.fund), ("aggr",
        .object (Json.Members.ofList (v.tree.readings.map fun r =>
          (g.label r.date, .object [("value", number r.fund)]))))]) := by
  have hfield : belowField? v.below = some "aggr" := by rw [hbelow, belowField?]
  rw [Walk.runFrom_readings, combine_eq hfield (by decide)]
  rfl

theorem fst_runFrom (interval : Option Granularity) (levels : List Level) (v : Visit) :
    (jsonWalk.runFrom interval levels () v).1 = memberName v := by
  cases levels with
  | nil =>
      cases interval with
      | none => rfl
      | some g => rw [Walk.runFrom_readings]; rfl
  | cons level rest => rw [Walk.runFrom_cons]; rfl

/-- What the walk makes of a well-formed group shows all of it exactly where missing texts stand
    apart from their label. -/
theorem renders_runFrom_iff {spec : Spec} {levels : List Level} {v : Visit}
    (hformed : v.tree.WellFormed spec.series levels)
    (hbelow : v.below = Subtotal.below levels spec.series.interval?) :
    Renders spec.series.interval? levels v.tree
        (jsonWalk.runFrom spec.series.interval? levels () v).2 ↔
      TreeNullsApart levels.length v.tree := by
  induction levels generalizing v with
  | nil =>
      obtain ⟨_, movements, hreadings⟩ := hformed
      refine iff_of_true ?_ trivial
      unfold Renders
      cases hinterval : spec.series.interval? with
      | none => rfl
      | some g =>
          have hlabels := Subtotal.Group.nodup_reading_labels hinterval hreadings
          rw [hinterval] at hbelow
          rw [runFrom_interval g hbelow, Json.Members.ofList_of_nodup (by rwa [List.map_map])]
          exact ⟨rfl, hlabels⟩
  | cons level rest ih =>
      obtain ⟨_, hnodup, hchildren⟩ := hformed
      rw [runFrom_level _ level rest hbelow]
      generalize hentries : (v.tree.children.map fun child =>
        jsonWalk.runFrom spec.series.interval? rest ()
          ⟨child, v.depth + 1, some level, Subtotal.below rest spec.series.interval?⟩) = entries
      have hnames : entries.map Prod.fst = (v.tree.children.map (·.key)).map (keyName level) := by
        rw [← hentries, List.map_map, List.map_map]
        refine List.map_congr_left fun child _ => ?_
        exact (fst_runFrom _ _ _).trans (memberName_eq rfl)
      have hapart : (entries.map Prod.fst).Nodup ↔ NullsApart (v.tree.children.map (·.key)) := by
        rw [hnames]
        refine nodup_keyNames_iff hnodup ?_
        intro key hkey
        obtain ⟨child, hchild, rfl⟩ := List.mem_map.1 hkey
        exact (hchildren child hchild).1
      have hbelowAll : List.Forall₂ (fun child member => member.1 = keyName level child.key ∧
          Renders spec.series.interval? rest child member.2) v.tree.children entries ↔
            ∀ child ∈ v.tree.children, TreeNullsApart rest.length child := by
        rw [← hentries, List.forall₂_map_right_iff, List.forall₂_same]
        refine forall₂_congr fun child hchild => ?_
        have hchildRenders := ih
          (v := ⟨child, v.depth + 1, some level, Subtotal.below rest spec.series.interval?⟩)
          (hchildren child hchild).2 rfl
        rw [fst_runFrom, memberName_eq rfl, ← hchildRenders]
        exact ⟨fun h => h.2, fun h => ⟨rfl, h⟩⟩
      constructor
      · rintro ⟨members, hvalue, hmembers, hall⟩
        -- as many members as groups are left, so no name came twice
        have hofList : Json.Members.ofList entries = members := by
          simpa using hvalue
        have hlength : (Json.Members.ofList entries).length = entries.length := by
          rw [hofList, ← hall.length_eq, ← hentries, List.length_map]
        have hdifferent := Json.Members.nodup_of_length_ofList hlength
        rw [Json.Members.ofList_of_nodup hdifferent] at hofList
        exact ⟨hapart.1 hdifferent, hbelowAll.1 (hofList ▸ hall)⟩
      · rintro ⟨hnulls, hall⟩
        have hdifferent := hapart.2 hnulls
        rw [Json.Members.ofList_of_nodup hdifferent]
        exact ⟨entries, rfl, hdifferent, hbelowAll.2 hall⟩

/-- The JSON of a subtotal shows every group and every reading once exactly where, nowhere in the
    tree, a missing content or remark stands beside the one that is the label of the undated
    bucket. -/
theorem json_renders_iff (spec : Spec) (rates : RateLookup) (entries : List (Posting × Decimal))
    (tree : Tree) (h : Subtotal.ofPostings spec rates entries = .ok tree) :
    Renders spec.series.interval? spec.effectiveLevels tree (json spec tree) ↔
      TreeNullsApart spec.effectiveLevels.length tree :=
  renders_runFrom_iff (v := ⟨tree, 0, none, _⟩) (Subtotal.wellFormed_ofPostings h) rfl

/-- Three and four units booked on one account, under these contents. -/
def bookedUnder (first second : Option String) : List (Posting × Decimal) :=
  let three := { Detail.ofTitle 1001 (Subtotal.cents 300) with content := first }
  let four := { Detail.ofTitle 1001 (Subtotal.cents 400) with content := second }
  let voucher := { Voucher.undated with details := [three, four] }
  (voucher.postings 0).map fun p => (p, p.detail.fund)

/-- A missing and an empty content stay apart. -/
theorem json_renders_missing_and_empty :
    ∃ tree, Subtotal.ofPostings (.ofLevels [.content]) (fun _ _ _ => none)
        (bookedUnder none (some "")) = .ok tree ∧
      Renders none [.content] tree (json (.ofLevels [.content]) tree) := by
  refine ⟨_, rfl, (json_renders_iff (.ofLevels [.content]) (fun _ _ _ => none)
    (bookedUnder none (some "")) _ rfl).2 ⟨⟨?_, ?_⟩, fun _ _ => trivial⟩⟩
  · decide
  · decide

/-- The group without a content is lost beside the one whose content is the label that it gets. -/
theorem json_loses_missing_content :
    ∃ tree, Subtotal.ofPostings (.ofLevels [.content]) (fun _ _ _ => none)
        (bookedUnder none (some "[null]")) = .ok tree ∧
      tree.children.length = 2 ∧
      json (.ofLevels [.content]) tree = .object [("value", .int 7),
        ("content", .object [("[null]", .object [("value", .int 4)])])] ∧
      ¬ Renders none [.content] tree (json (.ofLevels [.content]) tree) := by
  refine ⟨_, rfl, rfl, rfl, ?_⟩
  rintro ⟨members, hvalue, _, hall⟩
  cases hvalue
  exact absurd hall.length_eq (by decide)

end Presentation

end Bookkeeping

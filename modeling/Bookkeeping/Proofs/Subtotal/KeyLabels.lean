import Bookkeeping.Proofs.Calendar.Labels
import Bookkeeping.Subtotal.Key

set_option autoImplicit false

/-! # Labels identify groups

Groups of one level are told apart by their labels where the level is one of numbers or dates. A
number keeps its digits and its sign, however many zeros stand in front of them, and the missing
sub-title has the only empty label. What is left of a bucket's first day is enough to know the
bucket: the days that are met as buckets, `IsBucket`, are such first days.

Currencies, users, contents and remarks are their own labels. A missing content or remark is
labelled like an empty one, so these two are told apart by their keys alone. -/

namespace Bookkeeping

/-! ## Buckets -/

/-- The days that stand for a bucket of a size: the bucket of any date, and what a step leads to
    from one of them. -/
inductive Granularity.IsBucket (g : Granularity) : Date → Prop where
  | start (d : Date) : IsBucket g (g.start d)
  | step {bucket next : Date} (hbucket : IsBucket g bucket) (hstep : g.step? bucket = some next) :
      IsBucket g next

theorem Granularity.IsBucket.isStart {g : Granularity} {d : Date} (h : g.IsBucket d) :
    g.IsStart d := by
  induction h with
  | start d => exact g.isStart_start d
  | step _ hstep ih => exact isStart_step? ih hstep

namespace Subtotal.Key

/-! ## Titles and sub-titles -/

theorem label_title_injective (g : Granularity) {a b : Int32}
    (h : (title a).label g = (title b).label g) : a = b :=
  Int32.toInt_inj.1 (Text.padded_injective (String.ofList_injective h))

/-- A sub-title that is there has at least one digit. -/
theorem label_subTitle_ne_empty (g : Granularity) (number : Int32) :
    (subTitle (some number)).label g ≠ "" := by
  intro h
  exact Text.padded_ne_nil 2 number.toInt (String.ofList_injective h)

theorem label_subTitle_injective (g : Granularity) {a b : Option Int32}
    (h : (subTitle a).label g = (subTitle b).label g) : a = b := by
  cases a with
  | none =>
      cases b with
      | none => rfl
      | some b => exact absurd h.symm (label_subTitle_ne_empty g b)
  | some a =>
      cases b with
      | none => exact absurd h (label_subTitle_ne_empty g a)
      | some b =>
          have hnumber := Text.padded_injective (String.ofList_injective h)
          exact congrArg some (Int32.toInt_inj.1 hnumber)

/-! ## All of them -/

/-- Different buckets of one size, the undated one among them, have different labels, and so have
    different titles and different sub-titles, the missing one among them. -/
theorem labels_identify_groups (g : Granularity) :
    (∀ a b : Option Date, (∀ d ∈ a, g.IsBucket d) → (∀ d ∈ b, g.IsBucket d) → a ≠ b →
      g.label a ≠ g.label b) ∧
    (∀ a b : Int32, a ≠ b → (title a).label g ≠ (title b).label g) ∧
    ∀ a b : Option Int32, a ≠ b → (subTitle a).label g ≠ (subTitle b).label g := by
  refine ⟨fun a b ha hb hne heq => hne ?_, fun a b hne heq => hne (label_title_injective g heq),
    fun a b hne heq => hne (label_subTitle_injective g heq)⟩
  exact Granularity.label_injective (fun d hd => (ha d hd).isStart)
    (fun d hd => (hb d hd).isStart) heq

/-- The month before the year 0 and the first one of it, one step on, are told apart by their
    labels, as are numbers below zero and numbers with more digits than a label is padded to. -/
theorem labels_identify_groups_below_zero :
    Granularity.month.IsBucket ⟨-1, 12, 1, by decide⟩ ∧
      Granularity.month.IsBucket ⟨0, 1, 1, by decide⟩ ∧
      Granularity.month.label (some ⟨-1, 12, 1, by decide⟩) ≠
        Granularity.month.label (some ⟨0, 1, 1, by decide⟩) ∧
      Granularity.month.label (some ⟨0, 1, 1, by decide⟩) ≠ Granularity.month.label none ∧
      (title (-1)).label .month ≠ (title 1).label .month ∧
      (subTitle none).label .month ≠ (subTitle (some (-5))).label .month ∧
      (subTitle (some 100)).label .month ≠ (subTitle (some 10)).label .month := by
  obtain ⟨hbuckets, htitles, hsubTitles⟩ := labels_identify_groups .month
  have hdecember : Granularity.month.IsBucket ⟨-1, 12, 1, by decide⟩ :=
    .start ⟨-1, 12, 31, by decide⟩
  have hjanuary : Granularity.month.IsBucket ⟨0, 1, 1, by decide⟩ := .step hdecember rfl
  refine ⟨hdecember, hjanuary, hbuckets _ _ ?_ ?_ (by decide), hbuckets _ _ ?_ ?_ (by decide),
    htitles _ _ (by decide), hsubTitles _ _ (by decide), hsubTitles _ _ (by decide)⟩
  · rintro d ⟨⟩
    exact hdecember
  · rintro d ⟨⟩
    exact hjanuary
  · rintro d ⟨⟩
    exact hjanuary
  · rintro d ⟨⟩

end Subtotal.Key

end Bookkeeping

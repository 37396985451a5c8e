import VisitorCounter.Invariant

/-!
# The sliding window

What the counter is for: a visit counts unless the same visitor was seen within
the window before.  Here the decision is made on the full history of visits, and
nothing is ever pruned, culled or stored.

## Main Definitions

* `Decision`: a visit and whether it was counted
* `decideVisit`, `decisions`: the decisions of the sliding window, newest first
* `windowTags`: the tags inside the window at a visit
* `Admissible`, `Sequential`: visits one after the other, in range, whose window fits

## Main Results

* `pairwise_decisions`: two counted visits of one visitor are a window apart
* `countP_counted_lt`: the number of counted visits fits a `u64`, whatever the
  number of visits
-/

namespace VisitorCounter

open Runs

/-- A visit and whether it was counted. -/
structure Decision where
  visit : Invocation
  counted : Bool
deriving DecidableEq, Repr

namespace Decision

/-- The tag of the visitor. -/
def tag (d : Decision) : UInt32 := d.visit.visitor.tag

/-- When the visitor counts as seen: at `last_seen` for a counted visit, at `now`
for one that was not, in whole seconds. -/
def seenAt (d : Decision) : ℤ :=
  floorToSeconds (if d.counted then d.visit.visitor.lastSeen else d.visit.now)

end Decision

/-- The decision of the sliding window: a visit is counted unless the visitor was
seen within the window before. -/
def decideVisit (history : List Decision) (visit : Invocation) : Decision where
  visit := visit
  counted := decide (¬ ∃ d ∈ history, d.tag = visit.visitor.tag ∧ Recent visit.now d.seenAt)

theorem decideVisit_counted_iff {history : List Decision} {visit : Invocation} :
    (decideVisit history visit).counted = true ↔
      ¬ ∃ d ∈ history, d.tag = visit.visitor.tag ∧ Recent visit.now d.seenAt :=
  decide_eq_true_iff

/-- The decisions on a sequence of visits, newest first. -/
def decisions : List Invocation → List Decision
  | [] => []
  | visit :: earlier => decideVisit (decisions earlier) visit :: decisions earlier

/-- The tags inside the window at a visit, the visitor's own included. -/
def windowTags (history : List Decision) (visit : Invocation) : Finset UInt32 :=
  insert visit.visitor.tag
    ((history.filter fun d => decide (Recent visit.now d.seenAt)).map Decision.tag).toFinset

/-- A visit after the visits of a history: its times are in order and in range,
and the tags inside its window fit one list. -/
structure Admissible (history : List Decision) (visit : Invocation) : Prop where
  seen_le : visit.visitor.lastSeen ≤ visit.now
  after : ∀ d ∈ history.head?, d.visit.now ≤ visit.visitor.lastSeen
  seen_representable : Representable visit.visitor.lastSeen
  now_representable : Representable visit.now
  fits : (windowTags history visit).card ≤ maxRecentVisitors

/-- Visits one after the other, newest first. -/
def Sequential : List Invocation → Prop
  | [] => True
  | visit :: earlier => Admissible (decisions earlier) visit ∧ Sequential earlier

/-- The visits before any point of a sequence are a sequence. -/
theorem Sequential.of_append {later visits : List Invocation} (h : Sequential (later ++ visits)) :
    Sequential visits := by
  induction later with
  | nil => exact h
  | cons _ _ ih => exact ih h.2

/-- Every decision is on a visit whose times are in order and in range. -/
theorem Sequential.of_mem {visits : List Invocation} (h : Sequential visits) :
    ∀ d ∈ decisions visits, d.visit.visitor.lastSeen ≤ d.visit.now ∧
      Representable d.visit.visitor.lastSeen := by
  induction visits with
  | nil => exact fun d hd => absurd hd List.not_mem_nil
  | cons visit earlier ih =>
      exact List.forall_mem_cons.mpr
        ⟨⟨h.1.seen_le, h.1.seen_representable⟩, ih h.2⟩

/-- No earlier visit is later than the visitor was seen. -/
theorem Sequential.now_le {visit : Invocation} {earlier : List Invocation}
    (h : Sequential (visit :: earlier)) :
    ∀ d ∈ decisions earlier, d.visit.now ≤ visit.visitor.lastSeen := by
  induction earlier generalizing visit with
  | nil => exact fun d hd => absurd hd List.not_mem_nil
  | cons previous earlier ih =>
      have hafter : previous.now ≤ visit.visitor.lastSeen := h.1.after _ rfl
      have hseen := h.2.1.seen_le
      refine List.forall_mem_cons.mpr ⟨hafter, fun d hd => ?_⟩
      have hearlier := ih h.2 d hd
      omega

theorem Decision.seenAt_le_now {d : Decision} (h : d.visit.visitor.lastSeen ≤ d.visit.now) :
    d.seenAt ≤ d.visit.now := by
  refine (floorToSeconds_le _).trans ?_
  split
  · exact h
  · exact le_rfl

/-! ### The number of counted visits -/

/-- What holds between a decision and an earlier one. -/
def Apart (d earlier : Decision) : Prop :=
  earlier.visit.now ≤ d.visit.visitor.lastSeen ∧
    (d.counted = true → earlier.tag = d.tag → ¬ Recent d.visit.now earlier.seenAt)

/-- **Counted visits of one visitor are a window apart.** -/
theorem pairwise_decisions {visits : List Invocation} (h : Sequential visits) :
    (decisions visits).Pairwise Apart := by
  induction visits with
  | nil => exact List.Pairwise.nil
  | cons visit earlier ih =>
      refine List.Pairwise.cons (fun d hd => ⟨h.now_le d hd, ?_⟩) (ih h.2)
      intro hcounted htag hrecent
      exact decideVisit_counted_iff.mp hcounted ⟨d, hd, htag, hrecent⟩

/-- The visitor and the stretch of 7200 seconds in which it was seen. -/
def Decision.bucket (d : Decision) : ℕ × ℕ :=
  (d.tag.toNat, ((d.visit.visitor.lastSeen / 1_000_000_000 - 1_690_000_000) / 7200).toNat)

/-- At most two visits of one visitor in one stretch are counted: the third one was
seen after the second one's `now`, which is a window after the first one. -/
theorem length_le_two_of_bucket {l : List Decision} {b : ℕ × ℕ} (hapart : l.Pairwise Apart)
    (hcounted : ∀ d ∈ l, d.counted = true) (hbucket : ∀ d ∈ l, d.bucket = b)
    (hrep : ∀ d ∈ l, Representable d.visit.visitor.lastSeen) : l.length ≤ 2 := by
  match l with
  | [] => simp
  | [_] => simp
  | [_, _] => simp
  | d₃ :: d₂ :: d₁ :: rest =>
      -- The first and the third visit would be too far apart for one stretch.
      exfalso
      simp only [List.pairwise_cons, List.forall_mem_cons] at hapart
      simp only [List.forall_mem_cons] at hcounted hbucket hrep
      obtain ⟨⟨⟨hafter, -⟩, -⟩, ⟨⟨-, hwindow⟩, -⟩, -⟩ := hapart
      obtain ⟨-, hcounted₂, hcounted₁, -⟩ := hcounted
      obtain ⟨hb₃, hb₂, hb₁, -⟩ := hbucket
      obtain ⟨hrep₃, -, hrep₁, -⟩ := hrep
      have htag : d₁.tag = d₂.tag :=
        UInt32.toNat_inj.mp (congrArg Prod.fst (hb₁.trans hb₂.symm))
      have hstretch := congrArg Prod.snd (hb₃.trans hb₁.symm)
      have hlate := hwindow hcounted₂ htag
      simp only [Decision.seenAt, hcounted₁, if_true, Recent, floorToSeconds, not_lt] at hlate
      simp only [Decision.bucket] at hstretch
      unfold Representable at hrep₁ hrep₃
      omega

/-- A list that takes each value of a finite set at most `n` times is short. -/
theorem length_le_mul_card {α β : Type} [DecidableEq β] {l : List α} {f : α → β} {values : Finset β}
    {n : ℕ} (hmem : ∀ a ∈ l, f a ∈ values)
    (hcount : ∀ b ∈ values, (l.filter fun a => f a = b).length ≤ n) :
    l.length ≤ values.card * n := by
  have hsum : ∑ b ∈ values, (l.map f).count b = (l.map f).length := by
    have := Multiset.sum_count_eq_card (s := values) (m := (↑(l.map f) : Multiset β))
      (by simpa using hmem)
    simpa using this
  rw [← List.length_map f, ← hsum]
  refine Finset.sum_le_card_nsmul values _ n fun b hb => ?_
  rw [List.count, List.countP_map, List.countP_eq_length_filter]
  exact hcount b hb

/-- **The number of counted visits fits a `u64`**, however many visits there are. -/
theorem countP_counted_lt {visits : List Invocation} (h : Sequential visits) :
    (decisions visits).countP Decision.counted < 2 ^ 63 := by
  rw [List.countP_eq_length_filter]
  have hcounted : ∀ d ∈ (decisions visits).filter Decision.counted, d.counted = true :=
    fun d hd => List.of_mem_filter hd
  have hrep : ∀ d ∈ (decisions visits).filter Decision.counted,
      Representable d.visit.visitor.lastSeen :=
    fun d hd => (h.of_mem d (List.mem_of_mem_filter hd)).2
  have hapart := (pairwise_decisions h).sublist
    (List.filter_sublist (p := Decision.counted) (l := decisions visits))
  -- A `u32` of seconds has fewer than 600000 stretches of 7200 seconds.
  have hle : ((decisions visits).filter Decision.counted).length ≤
      (Finset.range (2 ^ 32) ×ˢ Finset.range 600_000).card * 2 := by
    refine length_le_mul_card (f := Decision.bucket) (fun d hd => ?_) fun b _ => ?_
    · have hrep := hrep d hd
      have htag := d.tag.toNat_lt
      unfold Representable at hrep
      simp only [Decision.bucket, Finset.mem_product, Finset.mem_range]
      omega
    · refine length_le_two_of_bucket (b := b) (hapart.sublist List.filter_sublist) ?_ ?_ ?_
      · exact fun d hd => hcounted d (List.mem_of_mem_filter hd)
      · exact fun d hd => of_decide_eq_true (List.mem_filter.mp hd).2
      · exact fun d hd => hrep d (List.mem_of_mem_filter hd)
  rw [Finset.card_product, Finset.card_range, Finset.card_range] at hle
  omega

end VisitorCounter

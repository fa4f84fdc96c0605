import MarkupSeeds.Proofs.Run.Pooling

/-!
# Counters that are words

As long as all sums fit into words, pooling goes the same way in every build.  Counters only grow,
so it is enough that the last sums fit.  If one does not, a build that stops at it returns nothing,
while one that goes on pools the same snippets and is left with what the words keep of the counts.
-/

namespace MarkupSeeds

section

variable {overflow : Overflow} {count amount : Nat}

theorem Overflow.raise?_of_le (hfits : count + amount ≤ Size.largest) :
    overflow.raise? count amount = some (count + amount) :=
  if_pos hfits

theorem Overflow.raise?_stops_of_lt (hover : Size.largest < count + amount) :
    Overflow.stops.raise? count amount = none :=
  if_neg (Nat.not_le.mpr hover)

theorem Overflow.raise?_wraps :
    Overflow.wraps.raise? count amount = some (Size.wrap (count + amount)) := by
  rw [raise?]
  split
  · rename_i hfits
    rw [Size.wrap_eq_self hfits]
  · rfl

end

/-! ## Reports of words -/

namespace Report

variable {r : Report} {e : Extractor} {fixtures : List Fixture}

/-- The counters that pooling raises are words. -/
structure Fits (r : Report) : Prop where
  fixturesRead : r.fixturesRead ≤ Size.largest
  fixturesFailed : r.fixturesFailed ≤ Size.largest
  snippetsFound : r.snippetsFound ≤ Size.largest

/-- What words keep of the counters that pooling raises. -/
def wrapped (r : Report) : Report :=
  { r with
    fixturesRead := Size.wrap r.fixturesRead
    fixturesFailed := Size.wrap r.fixturesFailed
    snippetsFound := Size.wrap r.snippetsFound }

theorem Fits.wrapped_eq (hfits : r.Fits) : r.wrapped = r := by
  rw [wrapped, Size.wrap_eq_self hfits.fixturesRead, Size.wrap_eq_self hfits.fixturesFailed,
    Size.wrap_eq_self hfits.snippetsFound]

theorem fits_wrapped (r : Report) : r.wrapped.Fits :=
  ⟨Size.wrap_le_largest _, Size.wrap_le_largest _, Size.wrap_le_largest _⟩

/-- Counters that fit in the end fit all the time. -/
theorem Fits.of_pool (hfits : (r.pool e fixtures).Fits) : r.Fits :=
  ⟨Nat.le_of_add_right_le hfits.fixturesRead, Nat.le_of_add_right_le hfits.fixturesFailed,
    Nat.le_of_add_right_le hfits.snippetsFound⟩

/-- It does not matter to what the words keep when they have lost the rest. -/
theorem wrapped_pool (r : Report) (e : Extractor) (fixtures : List Fixture) :
    (r.wrapped.pool e fixtures).wrapped = (r.pool e fixtures).wrapped := by
  simp only [pool, wrapped, Size.wrap_add_wrap]

end Report

/-! ## Pooling in words -/

namespace Pool

variable {overflow : Overflow} {e : Extractor} {p q : Pool} {fixture : Fixture}
  {fixtures : List Fixture} {report : Report}

/-- A pool has the snippets of another one and what words keep of its counters. -/
structure KeepsOf (q p : Pool) : Prop where
  corpus : q.corpus = p.corpus
  report : q.report = p.report.wrapped

theorem addBy_of_fits (hfits : (p.add e fixture).report.Fits) :
    addBy overflow.raise? e p fixture = some (p.add e fixture) := by
  cases hdocument : fixture.document with
  | ok document =>
      simp only [add, addBy, hdocument] at hfits ⊢
      rw [Overflow.raise?_of_le hfits.fixturesRead, Overflow.raise?_of_le hfits.snippetsFound]
      rfl
  | error error =>
      simp only [add, addBy, hdocument] at hfits ⊢
      rw [Overflow.raise?_of_le hfits.fixturesFailed]
      rfl

theorem addBy_stops_of_not_fits (hbefore : p.report.Fits)
    (hover : ¬ (p.add e fixture).report.Fits) :
    addBy Overflow.stops.raise? e p fixture = none := by
  cases hdocument : fixture.document with
  | ok document =>
      simp only [add, addBy, hdocument] at hover ⊢
      by_cases hread : p.report.fixturesRead + 1 ≤ Size.largest
      · rw [Overflow.raise?_of_le hread, Overflow.raise?_stops_of_lt]
        · rfl
        · refine Nat.not_le.mp fun hfound => ?_
          exact hover ⟨hread, hbefore.fixturesFailed, hfound⟩
      · rw [Overflow.raise?_stops_of_lt (Nat.not_le.mp hread)]
        rfl
  | error error =>
      simp only [add, addBy, hdocument] at hover ⊢
      rw [Overflow.raise?_stops_of_lt]
      · rfl
      · refine Nat.not_le.mp fun hfailed => ?_
        exact hover ⟨hbefore.fixturesRead, hfailed, hbefore.snippetsFound⟩

theorem exists_addBy_wraps (hkeeps : q.KeepsOf p) (e : Extractor) (fixture : Fixture) :
    ∃ next, addBy Overflow.wraps.raise? e q fixture = some next ∧
      next.KeepsOf (p.add e fixture) := by
  obtain ⟨hcorpus, hreport⟩ := hkeeps
  cases hdocument : fixture.document with
  | ok document =>
      simp only [add, addBy, hdocument, Overflow.raise?_wraps]
      refine ⟨_, rfl, ⟨by rw [hcorpus]; rfl, ?_⟩⟩
      simp only [hreport, Report.wrapped, Size.wrap_add_wrap]
      rfl
  | error error =>
      simp only [add, addBy, hdocument, Overflow.raise?_wraps]
      refine ⟨_, rfl, ⟨hcorpus, ?_⟩⟩
      simp only [hreport, Report.wrapped, Size.wrap_add_wrap]
      rfl

/-- Where the last sums fit, no build notices that its counters are words. -/
theorem foldlM_addBy_of_fits (hfits : (p.report.pool e fixtures).Fits) :
    fixtures.foldlM (addBy overflow.raise? e) p = some (fixtures.foldl (add e) p) := by
  induction fixtures generalizing p with
  | nil => rfl
  | cons fixture rest ih =>
      rw [← (foldl_add e p _).2, List.foldl_cons, (foldl_add e _ rest).2] at hfits
      rw [List.foldlM_cons, addBy_of_fits hfits.of_pool, List.foldl_cons]
      exact ih hfits

/-- A build that checks its sums stops at the first that does not fit. -/
theorem foldlM_addBy_stops_of_not_fits (hbefore : p.report.Fits)
    (hover : ¬ (p.report.pool e fixtures).Fits) :
    fixtures.foldlM (addBy Overflow.stops.raise? e) p = none := by
  induction fixtures generalizing p with
  | nil => exact absurd hbefore hover
  | cons fixture rest ih =>
      rw [← (foldl_add e p _).2, List.foldl_cons, (foldl_add e _ rest).2] at hover
      rw [List.foldlM_cons]
      by_cases hnext : (p.add e fixture).report.Fits
      · rw [addBy_of_fits hnext]
        exact ih hnext hover
      · rw [addBy_stops_of_not_fits hbefore hnext]
        rfl

theorem exists_foldlM_addBy_wraps (hkeeps : q.KeepsOf p) (e : Extractor)
    (fixtures : List Fixture) :
    ∃ last, fixtures.foldlM (addBy Overflow.wraps.raise? e) q = some last ∧
      last.KeepsOf (fixtures.foldl (add e) p) := by
  induction fixtures generalizing p q with
  | nil => exact ⟨q, rfl, hkeeps⟩
  | cons fixture rest ih =>
      obtain ⟨next, hnext, hkeeps'⟩ := exists_addBy_wraps hkeeps e fixture
      rw [List.foldlM_cons, hnext, List.foldl_cons]
      exact ih hkeeps'

theorem KeepsOf.conclude (hkeeps : q.KeepsOf p) : q.conclude.KeepsOf p.conclude := by
  obtain ⟨hcorpus, hreport⟩ := hkeeps
  refine ⟨hcorpus, ?_⟩
  simp only [Pool.conclude, hcorpus, hreport]
  rfl

theorem inWords?_of_fits (hfits : (report.pool e fixtures).Fits) :
    inWords? overflow e fixtures report = some (ofFixtures e fixtures report) := by
  rw [inWords?, foldlM_addBy_of_fits hfits]
  rfl

theorem inWords?_stops_of_not_fits (hbefore : report.Fits)
    (hover : ¬ (report.pool e fixtures).Fits) :
    inWords? .stops e fixtures report = none := by
  rw [inWords?, foldlM_addBy_stops_of_not_fits hbefore hover]
  rfl

theorem exists_inWords?_wraps (hbefore : report.Fits) (e : Extractor) (fixtures : List Fixture) :
    ∃ pool, inWords? .wraps e fixtures report = some pool ∧
      pool.KeepsOf (ofFixtures e fixtures report) := by
  have hkeeps : KeepsOf ⟨Corpus.empty, report, []⟩ ⟨Corpus.empty, report, []⟩ :=
    ⟨rfl, hbefore.wrapped_eq.symm⟩
  obtain ⟨last, hlast, hkeeps'⟩ := exists_foldlM_addBy_wraps hkeeps e fixtures
  refine ⟨last.conclude, ?_, hkeeps'.conclude⟩
  rw [inWords?, hlast]
  rfl

/-- Pooling in words returns, unless a sum does not fit and the build stops at it. -/
theorem isSome_inWords?_iff (hbefore : report.Fits) :
    (inWords? overflow e fixtures report).isSome ↔
      overflow = .wraps ∨ (report.pool e fixtures).Fits := by
  by_cases hfits : (report.pool e fixtures).Fits
  · rw [inWords?_of_fits hfits]
    exact iff_of_true rfl (Or.inr hfits)
  · cases overflow with
    | stops =>
        rw [inWords?_stops_of_not_fits hbefore hfits]
        exact iff_of_false Bool.false_ne_true (not_or.mpr ⟨nofun, hfits⟩)
    | wraps =>
        obtain ⟨pool, hpool, -⟩ := exists_inWords?_wraps hbefore e fixtures
        rw [hpool]
        exact iff_of_true rfl (Or.inl rfl)

/-- What it returns has the snippets and what words keep of the counts. -/
theorem keepsOf_of_inWords? (hbefore : report.Fits) {pool : Pool}
    (hpool : inWords? overflow e fixtures report = some pool) :
    pool.KeepsOf (ofFixtures e fixtures report) := by
  by_cases hfits : (report.pool e fixtures).Fits
  · rw [inWords?_of_fits hfits] at hpool
    cases hpool
    have hafter : (ofFixtures e fixtures report).report.Fits := by
      rw [report_ofFixtures]
      exact ⟨hfits.fixturesRead, hfits.fixturesFailed, hfits.snippetsFound⟩
    exact ⟨rfl, hafter.wrapped_eq.symm⟩
  · cases overflow with
    | stops =>
        rw [inWords?_stops_of_not_fits hbefore hfits] at hpool
        cases hpool
    | wraps =>
        obtain ⟨other, hother, hkeeps⟩ := exists_inWords?_wraps hbefore e fixtures
        cases hother.symm.trans hpool
        exact hkeeps

theorem report_of_inWords? (hbefore : report.Fits) {pool : Pool}
    (hpool : inWords? overflow e fixtures report = some pool) :
    pool.report =
      { (report.pool e fixtures).wrapped with uniqueSnippets := pool.corpus.size } := by
  obtain ⟨hcorpus, hreport⟩ := keepsOf_of_inWords? hbefore hpool
  rw [hreport, hcorpus, report_ofFixtures, corpus_ofFixtures]
  rfl

end Pool

end MarkupSeeds

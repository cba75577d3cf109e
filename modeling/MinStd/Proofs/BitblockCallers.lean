import MinStd.Proofs.BitblockSet

/-!
# The bits of the bitblock set have one holder each

A call decides its answer at the access that completes its range, and returns it later.  Between the
two the range is the call's and nobody holds it; every other owned bit is held by its owner.
-/

namespace MinStd.BitblockSet

open Function

variable {τ : Type*} [DecidableEq τ] {Z : Size}

/-! ### What a call has decided -/

/-- The call under way at `p` is the one asked for. -/
def Asked.Runs : Asked → Pc → Prop
  | _, .idle => True
  | .acquire start n, .acquireOne st => st = start ∧ n = 1
  | .acquire start n, .acquireLoad st m => st = start ∧ m = n
  | .acquire start n, .acquireSwap st m _ => st = start ∧ m = n
  | .acquire start n, .acquireFirst st m => st = start ∧ m = n
  | .acquire start n, .acquireLast st m => st = start ∧ m = n
  | .acquire _ _, .undoFirst _ _ => True
  | .acquire _ _, .undoLast _ _ _ => True
  | .acquire _ _, .giveBackFirst _ => True
  | .acquire _ _, .ret _ => True
  | .search n, .loadHint m _ => m = n
  | .search n, .chunkIsFull S _ _ => S.numBits = n
  | .search n, .scanLoad S _ _ => S.numBits = n
  | .search n, .scanOr S _ _ _ => S.numBits = n ∧ n = 1
  | .search n, .scanSwap S _ _ _ => S.numBits = n
  | .search _, .advanceHint _ _ => True
  | .search _, .found _ => True
  | .release, .releaseHint _ _ => True
  | .release, .releaseOne _ => True
  | .release, .releaseLoad _ _ => True
  | .release, .releaseSwap _ _ _ => True
  | .release, .releaseFirstLoad _ _ => True
  | .release, .releaseFirstSwap _ _ _ => True
  | .release, .releaseLast _ _ => True
  | .release, .restoreLast _ _ _ => True
  | .release, .restoreFirst _ => True
  | .release, .ret _ => True
  | _, _ => False

/-- The range the call under way at `p` is to answer. -/
def Asked.decided : Asked → Pc → Option (ℕ × ℕ)
  | .search n, .advanceHint _ bitIndex => some (bitIndex, n)
  | r, p => r.answer p

/-- What an access of `t` does: nothing to the owners, or it decides an answer and grants it. -/
structure Decides (r : Asked) (s s' : State τ) (t : τ) : Prop where
  runs : r.Runs (s'.pc t)
  others : ∀ u ≠ t, s'.pc u = s.pc u
  owners : r.decided (s'.pc t) = r.decided (s.pc t) ∧ s'.owners = s.owners
    ∨ ∃ start n, r.decided (s.pc t) = none ∧ r.decided (s'.pc t) = some (start, n)
      ∧ s'.owners = (s.grant t start n).owners

section Accesses

variable {r : Asked} {s s' : State τ} {t : τ} {p : Pc} {spurious : Bool}

theorem decides_setPc {s₁ : State τ} (howners : s₁.owners = s.owners) (hpc : s₁.pc = s.pc)
    (hr : r.Runs p) (hd : r.decided p = r.decided (s.pc t)) : Decides r s (s₁.setPc t p) t := by
  refine ⟨?_, fun u hu => ?_, .inl ⟨?_, howners⟩⟩
  · show r.Runs (update s₁.pc t p t)
    rwa [update_self]
  · show update s₁.pc t p u = _
    rw [update_of_ne hu, hpc]
  · show r.decided (update s₁.pc t p t) = _
    rwa [update_self]

theorem decides_grant (s₁ : State τ) {start n : ℕ} (howners : s₁.owners = s.owners)
    (hpc : s₁.pc = s.pc) (hr : r.Runs p) (hnone : r.decided (s.pc t) = none)
    (hd : r.decided p = some (start, n)) : Decides r s ((s₁.grant t start n).setPc t p) t := by
  refine ⟨?_, fun u hu => ?_, .inr ⟨start, n, hnone, ?_, ?_⟩⟩
  · show r.Runs (update s₁.pc t p t)
    rwa [update_self]
  · show update s₁.pc t p u = _
    rw [update_of_ne hu, hpc]
  · show r.decided (update s₁.pc t p t) = _
    rwa [update_self]
  · show (s₁.grant t start n).owners = _
    unfold State.grant
    rw [howners]

theorem runs_acquireLoop (start n : ℕ) (expected : BitVec 64) :
    (Asked.acquire start n).Runs (acquireLoop start n expected)
      ∧ (Asked.acquire start n).decided (acquireLoop start n expected) = none := by
  unfold acquireLoop
  split_ifs
  · exact ⟨trivial, rfl⟩
  · exact ⟨⟨rfl, rfl⟩, rfl⟩

theorem Decides.stepAcquire (hr : r.Runs (s.pc t)) (hs : stepAcquire s t spurious = some s') :
    Decides r s s' t := by
  unfold BitblockSet.stepAcquire at hs
  cases hp : s.pc t <;> simp only [hp, reduceCtorEq, Option.some.injEq] at hs <;> rw [hp] at hr <;>
    cases r <;> try exact hr.elim
  case acquireOne.acquire =>
    obtain ⟨rfl, rfl⟩ := hr
    split_ifs at hs <;> obtain rfl := Option.some.inj hs
    · exact decides_setPc rfl rfl trivial (by rw [hp]; rfl)
    · exact decides_grant (s.fetchOr _ _) rfl rfl trivial (by rw [hp]; rfl) rfl
  case acquireLoad.acquire =>
    obtain ⟨rfl, rfl⟩ := hr
    subst hs
    obtain ⟨h1, h2⟩ := runs_acquireLoop _ _ _
    exact decides_setPc rfl rfl h1 (by rw [hp]; exact h2)
  case acquireSwap.acquire =>
    obtain ⟨rfl, rfl⟩ := hr
    split_ifs at hs <;> obtain rfl := Option.some.inj hs
    · exact decides_grant (s.setWord _ _) rfl rfl trivial (by rw [hp]; rfl) rfl
    · obtain ⟨h1, h2⟩ := runs_acquireLoop _ _ _
      exact decides_setPc rfl rfl h1 (by rw [hp]; exact h2)
  case acquireFirst.acquire =>
    split_ifs at hs with hbusy hnew <;> obtain rfl := Option.some.inj hs
    · exact decides_setPc rfl rfl trivial (by rw [hp]; rfl)
    · exact decides_setPc rfl rfl trivial (by rw [hp]; rfl)
    · exact decides_setPc rfl rfl hr (by rw [hp]; rfl)
  case undoFirst.acquire =>
    subst hs
    exact decides_setPc rfl rfl trivial (by rw [hp]; rfl)
  case acquireLast.acquire =>
    obtain ⟨rfl, rfl⟩ := hr
    split_ifs at hs with hbusy hnew <;> obtain rfl := Option.some.inj hs
    · exact decides_setPc rfl rfl trivial (by rw [hp]; rfl)
    · exact decides_setPc rfl rfl trivial (by rw [hp]; rfl)
    · exact decides_grant (s.fetchOr _ _) rfl rfl trivial (by rw [hp]; rfl) rfl
  case undoLast.acquire =>
    subst hs
    exact decides_setPc rfl rfl trivial (by rw [hp]; rfl)
  case giveBackFirst.acquire =>
    subst hs
    exact decides_setPc rfl rfl trivial (by rw [hp]; rfl)

theorem decided_release (p : Pc) : Asked.release.decided p = none := by
  cases p <;> rfl

theorem runs_releaseFrom (start n : ℕ) : Asked.release.Runs (releaseFrom start n) := by
  unfold releaseFrom
  split_ifs <;> trivial

theorem runs_releaseLoop (start n : ℕ) (expected : BitVec 64) :
    Asked.release.Runs (releaseLoop start n expected) := by
  unfold releaseLoop
  split_ifs <;> trivial

theorem runs_releaseFirstLoop (start n : ℕ) (expected : BitVec 64) :
    Asked.release.Runs (releaseFirstLoop start n expected) := by
  unfold releaseFirstLoop
  split_ifs <;> trivial

/-- A release decides no range. -/
theorem decides_release {s₁ : State τ} (howners : s₁.owners = s.owners) (hpc : s₁.pc = s.pc)
    (hr : Asked.release.Runs p) : Decides .release s (s₁.setPc t p) t :=
  decides_setPc howners hpc hr ((decided_release p).trans (decided_release _).symm)

theorem Decides.stepRelease (hr : r.Runs (s.pc t)) (hs : stepRelease s t spurious = some s') :
    Decides r s s' t := by
  unfold BitblockSet.stepRelease at hs
  cases hp : s.pc t <;> simp only [hp, reduceCtorEq, Option.some.injEq] at hs <;> rw [hp] at hr <;>
    cases r <;> try exact hr.elim
  case releaseHint.release =>
    subst hs
    exact decides_release rfl rfl (runs_releaseFrom _ _)
  case releaseOne.release =>
    subst hs
    refine decides_release rfl rfl ?_
    split_ifs <;> trivial
  case releaseLoad.release =>
    subst hs
    exact decides_release rfl rfl (runs_releaseLoop _ _ _)
  case releaseSwap.release =>
    split_ifs at hs <;> obtain rfl := Option.some.inj hs
    · exact decides_release rfl rfl trivial
    · exact decides_release rfl rfl (runs_releaseLoop _ _ _)
  case releaseFirstLoad.release =>
    subst hs
    exact decides_release rfl rfl (runs_releaseFirstLoop _ _ _)
  case releaseFirstSwap.release =>
    split_ifs at hs <;> obtain rfl := Option.some.inj hs
    · exact decides_release rfl rfl trivial
    · exact decides_release rfl rfl (runs_releaseFirstLoop _ _ _)
  case releaseLast.release =>
    subst hs
    refine decides_release rfl rfl ?_
    split_ifs <;> trivial
  case restoreLast.release =>
    subst hs
    exact decides_release rfl rfl trivial
  case restoreFirst.release =>
    subst hs
    exact decides_release rfl rfl trivial

theorem runs_enterChunk (S : Scan) (i : ℕ) : (Asked.search S.numBits).Runs (enterChunk Z S i)
    ∧ (Asked.search S.numBits).decided (enterChunk Z S i) = none := by
  unfold enterChunk
  split_ifs
  · exact ⟨rfl, rfl⟩
  · exact ⟨trivial, rfl⟩

theorem runs_enterWord (S : Scan) (i w : ℕ) : (Asked.search S.numBits).Runs (enterWord Z S i w)
    ∧ (Asked.search S.numBits).decided (enterWord Z S i w) = none := by
  unfold enterWord
  split_ifs
  · exact ⟨rfl, rfl⟩
  · exact runs_enterChunk S _

theorem runs_tryWord (S : Scan) (i w : ℕ) (word : BitVec 64) :
    (Asked.search S.numBits).Runs (tryWord Z S i w word)
      ∧ (Asked.search S.numBits).decided (tryWord Z S i w word) = none := by
  unfold tryWord
  split_ifs with hfull hone
  · exact runs_enterWord S _ _
  · exact runs_enterWord S _ _
  · exact ⟨⟨rfl, hone⟩, rfl⟩
  · exact runs_enterWord S _ _
  · exact runs_enterWord S _ _
  · exact ⟨rfl, rfl⟩

/-- An access after which a search goes on. -/
theorem decides_search {s₁ : State τ} {n : ℕ} (howners : s₁.owners = s.owners)
    (hpc : s₁.pc = s.pc) (hnone : (Asked.search n).decided (s.pc t) = none)
    (h : (Asked.search n).Runs p ∧ (Asked.search n).decided p = none) :
    Decides (.search n) s (s₁.setPc t p) t :=
  decides_setPc howners hpc h.1 (h.2.trans hnone.symm)

theorem Decides.stepScan (hr : r.Runs (s.pc t)) (hs : stepScan Z s t spurious = some s') :
    Decides r s s' t := by
  unfold BitblockSet.stepScan at hs
  cases hp : s.pc t <;> simp only [hp, reduceCtorEq, Option.some.injEq] at hs <;> rw [hp] at hr <;>
    cases r <;> try exact hr.elim
  case loadHint.search =>
    obtain rfl := hr
    subst hs
    exact decides_search rfl rfl (by rw [hp]; rfl) (runs_enterChunk ⟨_, _⟩ _)
  case chunkIsFull.search =>
    obtain rfl := hr
    split_ifs at hs <;> obtain rfl := Option.some.inj hs
    · exact decides_search rfl rfl (by rw [hp]; rfl) (runs_enterWord _ _ _)
    · exact decides_search rfl rfl (by rw [hp]; rfl) ⟨rfl, rfl⟩
    · exact decides_search rfl rfl (by rw [hp]; rfl) (runs_enterChunk _ _)
  case scanLoad.search =>
    obtain rfl := hr
    subst hs
    exact decides_search rfl rfl (by rw [hp]; rfl) (runs_tryWord _ _ _ _)
  case scanOr.search =>
    obtain ⟨hn, rfl⟩ := hr
    split_ifs at hs <;> obtain rfl := Option.some.inj hs
    · exact decides_grant (s.fetchOr _ _) rfl rfl trivial (by rw [hp]; rfl) rfl
    · exact decides_search rfl rfl (by rw [hp]; rfl) ⟨hn, rfl⟩
  case scanSwap.search =>
    obtain rfl := hr
    split_ifs at hs <;> obtain rfl := Option.some.inj hs
    · exact decides_grant (s.setWord _ _) rfl rfl trivial (by rw [hp]; rfl) rfl
    · exact decides_search rfl rfl (by rw [hp]; rfl) (runs_tryWord _ _ _ _)
  case advanceHint.search =>
    subst hs
    exact decides_setPc rfl rfl trivial (by rw [hp]; rfl)

end Accesses

/-! ### Holders and owners -/

theorem decided_idle (r : Asked) : r.decided .idle = none := by
  cases r <;> rfl

theorem runs_acquire (start n : ℕ) : (Asked.acquire start n).Runs (acquire Z start n)
    ∧ (Asked.acquire start n).decided (acquire Z start n) = none := by
  unfold acquire acquireFrom
  split_ifs with hvalid hw hn
  · exact ⟨⟨rfl, hn⟩, rfl⟩
  · exact ⟨⟨rfl, rfl⟩, rfl⟩
  · exact ⟨⟨rfl, rfl⟩, rfl⟩
  · refine ⟨trivial, ?_⟩
    unfold Asked.decided Asked.answer
    split <;> simp_all

theorem runs_contiguous (n offset : ℕ) :
    (Asked.search n).Runs (acquireFirstAvailableContiguous n offset)
      ∧ (Asked.search n).decided (acquireFirstAvailableContiguous n offset) = none := by
  unfold acquireFirstAvailableContiguous acquireFirstAvailable
  split_ifs with hn hone
  · exact ⟨trivial, rfl⟩
  · exact ⟨hone.symm, rfl⟩
  · exact ⟨rfl, rfl⟩

namespace Callers

/-- The call of `t` is to answer a range with the bit in it. -/
def Decided (s : Callers τ) (t : τ) (b : ℕ) : Prop :=
  ∃ start n, (s.asked t).decided (s.set.pc t) = some (start, n) ∧ InRange start n b

structure Inv (Z : Size) (s : Callers τ) : Prop where
  set : BitblockSet.Inv Z s.set
  runs : ∀ t, (s.asked t).Runs (s.set.pc t)
  waiting : ∀ b t, s.Decided t b → s.set.owners b = [t] ∧ s.holders b = []
  held : ∀ b, (∀ t, ¬ s.Decided t b) → s.holders b = s.set.owners b

section Steps

variable {s : Callers τ} {z : State τ} {t : τ}

/-- A call begins; where it gives bits up, it gives up bits that somebody holds. -/
theorem Inv.call {r : Asked} {p : Pc} {H : ℕ → List τ} (h : Inv Z s) (hz : BitblockSet.Inv Z z)
    (hidle : s.set.pc t = .idle) (hpc : z.pc = update s.set.pc t p)
    (hr : r.Runs p ∧ r.decided p = none)
    (hH : ∀ b, H b = s.holders b ∧ z.owners b = s.set.owners b
      ∨ s.holders b ≠ [] ∧ (s.holders b = s.set.owners b → H b = z.owners b)) :
    Inv Z ⟨z, update s.asked t r, H⟩ := by
  have decided : ∀ b u, Decided ⟨z, update s.asked t r, H⟩ u b ↔ s.Decided u b := by
    intro b u
    unfold Decided
    simp only [hpc]
    by_cases hut : u = t
    · rw [hut, update_self, update_self, hr.2, hidle, decided_idle]
    · rw [update_of_ne hut, update_of_ne hut]
  refine ⟨hz, fun u => ?_, fun b u hu => ?_, fun b hb => ?_⟩
  · simp only [hpc]
    by_cases hut : u = t
    · rw [hut, update_self, update_self]
      exact hr.1
    · rw [update_of_ne hut, update_of_ne hut]
      exact h.runs u
  · obtain ⟨h1, h2⟩ := h.waiting b u ((decided b u).1 hu)
    rcases hH b with ⟨h3, h4⟩ | ⟨h3, -⟩
    · exact ⟨h4.trans h1, h3.trans h2⟩
    · exact absurd h2 h3
  · have heq := h.held b fun u hu => hb u ((decided b u).2 hu)
    rcases hH b with ⟨h3, h4⟩ | ⟨-, h4⟩
    · exact h3.trans (heq.trans h4.symm)
    · exact h4 heq

/-- An access of a call, which may decide its answer. -/
theorem Inv.access (h : Inv Z s) (hz : BitblockSet.Inv Z z)
    (hd : Decides (s.asked t) s.set z t) : Inv Z ⟨z, s.asked, s.holders⟩ := by
  have others : ∀ b u, u ≠ t → (Decided ⟨z, s.asked, s.holders⟩ u b ↔ s.Decided u b) := by
    intro b u hu
    unfold Decided
    simp only [hd.others u hu]
  have runs : ∀ u, (s.asked u).Runs (z.pc u) := by
    intro u
    by_cases hut : u = t
    · rw [hut]
      exact hd.runs
    · rw [hd.others u hut]
      exact h.runs u
  rcases hd.owners with ⟨hsame, howners⟩ | ⟨start, n, hnone, hnew, howners⟩
  · have decided : ∀ b u, Decided ⟨z, s.asked, s.holders⟩ u b ↔ s.Decided u b := by
      intro b u
      by_cases hut : u = t
      · subst hut
        unfold Decided
        simp only [hsame]
      · exact others b u hut
    refine ⟨hz, runs, fun b u hu => ?_, fun b hb => ?_⟩
    · show z.owners b = [u] ∧ s.holders b = []
      rw [howners]
      exact h.waiting b u ((decided b u).1 hu)
    · show s.holders b = z.owners b
      rw [howners]
      exact h.held b fun u hu => hb u ((decided b u).2 hu)
  · have mine : ∀ b, Decided ⟨z, s.asked, s.holders⟩ t b ↔ InRange start n b := by
      intro b
      unfold Decided
      simp only [hnew, Option.some.injEq, Prod.mk.injEq]
      exact ⟨fun ⟨_, _, ⟨h1, h2⟩, h3⟩ => h1 ▸ h2 ▸ h3, fun hb => ⟨start, n, ⟨rfl, rfl⟩, hb⟩⟩
    have before : ∀ b, ¬ s.Decided t b := by
      rintro b ⟨_, _, h1, -⟩
      rw [hnone] at h1
      cases h1
    have owners : ∀ b, z.owners b
        = if InRange start n b then t :: s.set.owners b else s.set.owners b := by
      intro b
      rw [howners]
      rfl
    -- the bits of the range had no owner, so nobody held them and no answer was to give them
    have fresh : ∀ b, InRange start n b → s.set.owners b = [] := by
      intro b hb
      have hone := hz.one_owner b
      rw [owners, if_pos hb, List.length_cons] at hone
      exact List.length_eq_zero_iff.1 (by omega)
    refine ⟨hz, runs, fun b u hu => ?_, fun b hb => ?_⟩
    · show z.owners b = [u] ∧ s.holders b = []
      rw [owners]
      by_cases hut : u = t
      · subst hut
        have hb := (mine b).1 hu
        rw [if_pos hb, fresh b hb]
        refine ⟨rfl, (h.held b fun v hv => ?_).trans (fresh b hb)⟩
        have := (h.waiting b v hv).1
        rw [fresh b hb] at this
        cases this
      · have hold := h.waiting b u ((others b u hut).1 hu)
        rwa [if_neg]
        intro hb
        rw [fresh b hb] at hold
        cases hold.1
    · show s.holders b = z.owners b
      rw [owners, if_neg fun hr => hb t ((mine b).2 hr)]
      refine h.held b fun u hu => ?_
      by_cases hut : u = t
      · exact before b (hut ▸ hu)
      · exact hb u ((others b u hut).2 hu)

/-- A call returns, and its caller holds what it answers. -/
theorem Inv.ret (h : Inv Z s) (hz : BitblockSet.Inv Z (s.set.setPc t .idle))
    (hp : (s.asked t).decided (s.set.pc t) = (s.asked t).answer (s.set.pc t)) :
    Inv Z ⟨s.set.setPc t .idle, s.asked, s.take t ((s.asked t).answer (s.set.pc t))⟩ := by
  have others : ∀ (H : ℕ → List τ) b u, u ≠ t →
      (Decided ⟨s.set.setPc t .idle, s.asked, H⟩ u b ↔ s.Decided u b) := by
    intro H b u hu
    unfold Decided State.setPc
    simp only [update_of_ne hu]
  have mine : ∀ (H : ℕ → List τ) b, ¬ Decided ⟨s.set.setPc t .idle, s.asked, H⟩ t b := by
    rintro H b ⟨_, _, h1, -⟩
    replace h1 : (s.asked t).decided (update s.set.pc t .idle t) = _ := h1
    rw [update_self, decided_idle] at h1
    cases h1
  have runs : ∀ u, (s.asked u).Runs ((s.set.setPc t .idle).pc u) := by
    intro u
    show (s.asked u).Runs (update s.set.pc t .idle u)
    by_cases hut : u = t
    · rw [hut, update_self]
      cases s.asked t <;> trivial
    · rw [update_of_ne hut]
      exact h.runs u
  -- a bit the answer gives was waiting for it
  have given : ∀ b, s.Decided t b → s.take t ((s.asked t).answer (s.set.pc t)) b = [t] := by
    rintro b ⟨start, n, h1, h2⟩
    have hw := h.waiting b t ⟨start, n, h1, h2⟩
    rw [← hp, h1]
    show (if InRange start n b then t :: s.holders b else s.holders b) = [t]
    rw [if_pos h2, hw.2]
  have kept : ∀ b, ¬ s.Decided t b →
      s.take t ((s.asked t).answer (s.set.pc t)) b = s.holders b := by
    intro b hb
    rw [← hp]
    rcases hans : (s.asked t).decided (s.set.pc t) with _ | ⟨start, n⟩
    · rfl
    · exact if_neg fun hr => hb ⟨start, n, hans, hr⟩
  refine ⟨hz, runs, fun b u hu => ?_, fun b hb => ?_⟩
  · have hut : u ≠ t := fun hut => mine _ b (hut ▸ hu)
    have hold := h.waiting b u ((others _ b u hut).1 hu)
    refine ⟨hold.1, (kept b fun ht => hut ?_).trans hold.2⟩
    exact List.cons.inj (hold.1.symm.trans (h.waiting b t ht).1) |>.1
  · by_cases ht : s.Decided t b
    · exact (given b ht).trans (h.waiting b t ht).1.symm
    · refine (kept b ht).trans (h.held b fun u hu => ?_)
      by_cases hut : u = t
      · exact ht (hut ▸ hu)
      · exact hb u ((others _ b u hut).2 hu)

theorem answer_of_run {r : Asked} {p : Pc} (hret : ∀ result, p ≠ .ret result)
    (hfound : ∀ bitIndex, p ≠ .found bitIndex) : r.answer p = none := by
  unfold Asked.answer
  split
  · exact absurd rfl (hret _)
  · exact absurd rfl (hfound _)
  · rfl

theorem decides_stepRun {r : Asked} {spurious : Bool} {s z : State τ} (hr : r.Runs (s.pc t))
    (hret : ∀ result, s.pc t ≠ .ret result) (hfound : ∀ bitIndex, s.pc t ≠ .found bitIndex)
    (hs : stepRun Z s t spurious = some z) : Decides r s z t := by
  unfold stepRun at hs
  split at hs
  · cases hs
  · exact absurd ‹_› (hret _)
  · exact absurd ‹_› (hfound _)
  · rcases Option.or_eq_some_iff.1 hs with hs | ⟨-, hs⟩
    · rcases Option.or_eq_some_iff.1 hs with hs | ⟨-, hs⟩
      · exact .stepAcquire hr hs
      · exact .stepRelease hr hs
    · exact .stepScan hr hs

theorem Inv.run {spurious : Bool} (h : Inv Z s) (hs : stepRun Z s.set t spurious = some z) :
    Inv Z ⟨z, s.asked, s.take t ((s.asked t).answer (s.set.pc t))⟩ := by
  have hz : BitblockSet.Inv Z z := h.set.step (a := .run t spurious) hs
  rcases hp : s.set.pc t
  case idle =>
    unfold stepRun at hs
    rw [hp] at hs
    cases hs
  case ret result =>
    unfold stepRun at hs
    rw [hp] at hs
    obtain rfl := Option.some.inj hs
    rw [← hp]
    refine h.ret hz ?_
    rw [hp]
    cases s.asked t <;> rfl
  case found bitIndex =>
    unfold stepRun at hs
    rw [hp] at hs
    obtain rfl := Option.some.inj hs
    rw [← hp]
    refine h.ret hz ?_
    rw [hp]
    cases s.asked t <;> rfl
  all_goals
    rw [answer_of_run (by simp) (by simp)]
    exact h.access hz (decides_stepRun (h.runs t) (by simp [hp]) (by simp [hp]) hs)

omit [DecidableEq τ] in
theorem Inv.owns_of_holds {holder : τ} {start n : ℕ} (h : Inv Z s) (hh : s.HoldsRange holder start n) :
    s.set.OwnsRange holder start n := by
  intro k hk
  rw [← h.held (start + k) fun u hu => ?_]
  · exact hh k hk
  · have := hh k hk
    rw [(h.waiting _ u hu).2] at this
    cases this

theorem Inv.step {s' : Callers τ} {a : Action τ} (h : Inv Z s) (hs : step Z s a = some s') :
    Inv Z s' := by
  rcases a with ⟨t, start, n⟩ | ⟨t, offset⟩ | ⟨t, n, offset⟩ | ⟨t, holder, start, n⟩ | ⟨t, spurious⟩ <;>
    simp only [Callers.step] at hs
  · obtain ⟨z, hz, rfl⟩ := Option.map_eq_some_iff.1 hs
    have hinv := h.set.step hz
    simp only [BitblockSet.step] at hz
    split_ifs at hz with hidle
    obtain rfl := Option.some.inj hz
    exact h.call hinv hidle rfl (runs_acquire _ _) fun _ => .inl ⟨rfl, rfl⟩
  · obtain ⟨z, hz, rfl⟩ := Option.map_eq_some_iff.1 hs
    have hinv := h.set.step hz
    simp only [BitblockSet.step] at hz
    split_ifs at hz with hidle
    obtain rfl := Option.some.inj hz
    exact h.call hinv hidle rfl ⟨rfl, rfl⟩ fun _ => .inl ⟨rfl, rfl⟩
  · obtain ⟨z, hz, rfl⟩ := Option.map_eq_some_iff.1 hs
    have hinv := h.set.step hz
    simp only [BitblockSet.step] at hz
    split_ifs at hz with hidle
    obtain rfl := Option.some.inj hz
    exact h.call hinv hidle rfl (runs_contiguous _ _) fun _ => .inl ⟨rfl, rfl⟩
  · split_ifs at hs with hholds
    obtain ⟨z, hz, rfl⟩ := Option.map_eq_some_iff.1 hs
    have hinv := h.set.step hz
    simp only [BitblockSet.step] at hz
    split_ifs at hz with hcall hvalid
    · obtain rfl := Option.some.inj hz
      refine h.call hinv hcall.1 rfl ⟨trivial, rfl⟩ fun b => ?_
      by_cases hb : InRange start n b
      · refine .inr ⟨?_, fun heq => ?_⟩
        · have := hholds (b - start) (by unfold InRange at hb; omega)
          rw [Nat.add_sub_cancel' hb.1] at this
          exact List.ne_nil_of_mem this
        · show s.drop Z holder start n b
            = if InRange start n b then (s.set.owners b).erase holder else s.set.owners b
          unfold drop
          rw [if_pos ⟨hvalid, hb⟩, if_pos hb, heq]
      · refine .inl ⟨if_neg fun h => hb h.2, if_neg hb⟩
    · obtain rfl := Option.some.inj hz
      refine h.call hinv hcall.1 rfl ⟨trivial, decided_release _⟩ fun b => .inl ⟨?_, rfl⟩
      exact if_neg fun h => hvalid h.1
  · obtain ⟨z, hz, rfl⟩ := Option.map_eq_some_iff.1 hs
    exact h.run hz

end Steps

theorem inv_of_reachable {s : Callers τ} (h : (machine (τ := τ) Z).Reachable s) : Inv Z s := by
  refine Machine.reachable_induction (fun s hs => ?_) (fun _ _ _ _ ih hs => ih.step hs) h
  have hidle : ∀ t, s.set.pc t = .idle := fun t => by rw [hs.set.pc]
  have none : ∀ b t, ¬ s.Decided t b := by
    rintro b t ⟨_, _, h1, -⟩
    rw [hidle, decided_idle] at h1
    cases h1
  refine ⟨inv_start hs.set, fun t => ?_, fun b t ht => absurd ht (none b t), fun b _ => ?_⟩
  · rw [hidle]
    cases s.asked t <;> trivial
  · rw [hs.holders, hs.set.owners]

end Callers

/-! ### The result -/

/-- By the answers of the calls every bit has at most one holder, and a held bit is inside the set
and found set; its holder may have it released; with no call in flight the set bits in range are
exactly the held ones. -/
structure Correct (Z : Size) (s : Callers τ) : Prop where
  one_holder : ∀ b, (s.holders b).length ≤ 1
  in_range : ∀ b, s.holders b ≠ [] → b < Z.SIZE_IN_BITS
  held_set : ∀ b, s.holders b ≠ [] → s.set.Bit b
  release_open : ∀ t holder start n, s.set.pc t = .idle → s.HoldsRange holder start n →
    ((Callers.machine Z).step s (.release t holder start n)).isSome
  quiescent : (∀ t, s.set.pc t = .idle) → ∀ b < Z.SIZE_IN_BITS, s.set.Bit b ↔ s.holders b ≠ []

theorem owned_once_of_reachable {s : Callers τ} (h : (Callers.machine (τ := τ) Z).Reachable s) :
    Correct Z s := by
  have hinv := Callers.inv_of_reachable h
  have same : ∀ b, s.holders b ≠ [] → s.holders b = s.set.owners b := fun b hb =>
    hinv.held b fun t ht => hb (hinv.waiting b t ht).2
  have some_owner : ∀ b, s.holders b ≠ [] → ∃ t, t ∈ s.set.owners b := fun b hb =>
    List.exists_mem_of_ne_nil _ (same b hb ▸ hb)
  refine ⟨fun b => ?_, fun b hb => ?_, fun b hb => ?_, fun t holder start n hidle hholds => ?_,
    fun hidle b hlt => ⟨fun hbit => ?_, fun hb => ?_⟩⟩
  · rcases eq_or_ne (s.holders b) [] with hb | hb
    · rw [hb]
      exact Nat.zero_le _
    · rw [same b hb]
      exact hinv.set.one_owner b
  · obtain ⟨t, ht⟩ := some_owner b hb
    exact hinv.set.owned_lt b t ht
  · obtain ⟨t, ht⟩ := some_owner b hb
    exact hinv.set.owned_set b t ht
  · show (Callers.step Z s (.release t holder start n)).isSome
    simp only [Callers.step, step]
    rw [if_pos hholds, if_pos ⟨hidle, hinv.owns_of_holds hholds⟩]
    split_ifs <;> rfl
  · rw [hinv.held b fun t ⟨_, _, h1, _⟩ => ?_]
    · refine (hinv.set.accounted b hlt hbit).resolve_right ?_
      rintro ⟨t, ht⟩
      rw [hidle] at ht
      exact ht
    · rw [hidle, decided_idle] at h1
      cases h1
  · obtain ⟨t, ht⟩ := some_owner b hb
    exact hinv.set.owned_set b t ht

/-- A range over two words meets a held bit in the second and is given back. -/
theorem owned_once_of_reachable_undone : ∃ (Z : Size) (s : Callers (Fin 2)),
    (Callers.machine (τ := Fin 2) Z).Reachable s
      ∧ s.set.pc 1 = .ret .failedBitAlreadyAcquiredLastWord
      ∧ s.holders 66 = [0] ∧ s.holders 60 = [] ∧ Correct Z s := by
  have hrun : ∃ s, (Callers.machine (τ := Fin 2) ⟨128, le_rfl⟩).Reachable s
      ∧ s.set.pc 1 = .ret .failedBitAlreadyAcquiredLastWord
      ∧ s.holders 66 = [0] ∧ s.holders 60 = [] :=
    Machine.exists_run
      (s := ⟨⟨Bits.new ⟨128, le_rfl⟩, fun _ => .idle, fun _ => []⟩, fun _ => .release, fun _ => []⟩)
      (.acquire 0 66 1 :: .acquire 1 60 16 :: .run 1 false :: .run 0 false
        :: List.replicate 3 (.run 1 false) ++ [.run 0 false])
      ⟨⟨rfl, rfl, rfl⟩, rfl, rfl⟩ (by decide)
  obtain ⟨s, hs, hp, h1, h2⟩ := hrun
  exact ⟨_, s, hs, hp, h1, h2, owned_once_of_reachable hs⟩

end MinStd.BitblockSet

import MinStd.Proofs.BitblockBlocks
import MinStd.Proofs.BitblockScan

/-!
# The allocations of the bitblock resource are apart

Each allocation, and each call that has taken elements and not yet handed them out, owns its elements
in its block's set (`Claims`), which is in a state its own machine reaches.  So no two claims share an
element, and the header before a pointer is what its own call wrote.
-/

namespace MinStd.BitblockResource

open Function BitblockSet

variable {τ : Type*} {P : Params}

/-- The elements a call has acquired and not yet handed out. -/
def Pc.claim? (P : Params) (t : τ) (sets : ℕ → BitblockSet.State τ) : Pc τ → Option (Claim τ)
  | .scan _ block R =>
    ((sets block).pc t).taken?.map fun index => ⟨block, index, R.numElements P, t⟩
  | .subFree _ block index R => some ⟨block, index, R.numElements P, t⟩
  | .storeHint _ block index R => some ⟨block, index, R.numElements P, t⟩
  | .finalize _ block index R => some ⟨block, index, R.numElements P, t⟩
  | .storeCoreHint block index R => some ⟨block, index, R.numElements P, t⟩
  | .handOut block index R => some ⟨block, index, R.numElements P, t⟩
  | _ => none

/-- Where a scan for `n` bits is in its set. -/
def Searching (n : ℕ) (q : BitblockSet.Pc) : Prop :=
  Scanning n q ∨ ∃ index, q = .advanceHint (index + n) index ∨ q = .found (some index)

/-- Where a thread is in the set of a block. -/
def SetPcOk (P : Params) (p : Pc τ) (b : ℕ) (q : BitblockSet.Pc) : Prop :=
  match p with
  | .scan _ block R => if b = block then Searching (R.numElements P) q else q = .idle
  | .releasing c _ =>
    if b = c.block then Releasing c.index c.numElements q ∨ q = .ret .success else q = .idle
  | _ => q = .idle

/-- The header of elements names their block and their number. -/
def HeaderOk (P : Params) (s : State τ) (c : Claim τ) : Prop :=
  s.headers (P.elementAt c.block c.index) = (c.block, c.numElements)

/-- What else is known of a place. -/
def PcHeld (P : Params) (s : State τ) (t : τ) : Pc τ → Prop
  | .storeCoreHint block index R => HeaderOk P s ⟨block, index, R.numElements P, t⟩
  | .handOut block index R => HeaderOk P s ⟨block, index, R.numElements P, t⟩
  | .releasing c _ => startWord c.index = endWord c.index c.numElements
  | _ => True

/-- The elements are a run inside one word of a block's set, and owned there. -/
structure ClaimOk (P : Params) (s : State τ) (c : Claim τ) : Prop where
  made : c.block ∈ s.made
  pos : 1 ≤ c.numElements
  le : c.numElements ≤ 16
  fits : c.index + c.numElements ≤ P.ELEMENTS_PER_BLOCK
  single : startWord c.index = endWord c.index c.numElements
  owned : ∀ k, InRange c.index c.numElements k → c.owner ∈ (s.sets c.block).owners k

/-- The claims share no element. -/
def Apart (c c' : Claim τ) : Prop :=
  c.block = c'.block → ∀ k, InRange c.index c.numElements k → ¬ InRange c'.index c'.numElements k

/-- The pointer is after the header of elements that hold the bytes. -/
structure Formed (P : Params) (s : State τ) (a : Allocation τ) : Prop where
  ptr : a.ptr = P.elementAt a.claim.block a.claim.index + HEADER_SIZE
  bytes : a.bytes + HEADER_SIZE ≤ a.claim.numElements * P.ELEMENT_SIZE_IN_BYTES
  header : HeaderOk P s a.claim

/-- The claim of an allocation or of a call under way. -/
def Claimed (P : Params) (s : State τ) (c : Claim τ) : Prop :=
  (∃ a ∈ s.live, a.claim = c) ∨ ∃ t, c ∈ (s.pc t).claim? P t s.sets

structure Claims [DecidableEq τ] (P : Params) (s : State τ) : Prop where
  sets : ∀ b, (BitblockSet.machine P.setSize).Reachable (s.sets b)
  setPc : ∀ t b, SetPcOk P (s.pc t) b ((s.sets b).pc t)
  pending : ∀ t, ∀ c ∈ (s.pc t).claim? P t s.sets, ClaimOk P s c
  live : ∀ a ∈ s.live, ClaimOk P s a.claim
  apart : s.live.Pairwise fun a a' => Apart a.claim a'.claim
  pendingApart : ∀ t, ∀ c ∈ (s.pc t).claim? P t s.sets, ∀ a ∈ s.live, Apart c a.claim
  formed : ∀ a ∈ s.live, Formed P s a
  held : ∀ t, PcHeld P s t (s.pc t)

section Claims

variable {s s' : State τ} {t u : τ} {p : Pc τ} {b k : ℕ} {R : Request} {w : Where} {c c' : Claim τ}

theorem Apart.symm (h : Apart c c') : Apart c' c := fun hb k hk hk' => h hb.symm k hk' hk

theorem ClaimOk.keep (h : ClaimOk P s c) (hmade : ∀ b ∈ s.made, b ∈ s'.made)
    (howned : ∀ k, InRange c.index c.numElements k → c.owner ∈ (s.sets c.block).owners k →
      c.owner ∈ (s'.sets c.block).owners k) : ClaimOk P s' c :=
  ⟨hmade _ h.made, h.pos, h.le, h.fits, h.single, fun k hk => howned k hk (h.owned k hk)⟩

theorem elementAt_add (P : Params) (b i n : ℕ) :
    P.elementAt b i + n * P.ELEMENT_SIZE_IN_BYTES = P.elementAt b (i + n) := by
  unfold Params.elementAt
  rw [Nat.add_mul]
  omega

/-- The elements of a claim are inside its block. -/
theorem ClaimOk.inside (h : ClaimOk P s c) : c.block + P.DATA_OFFSET ≤ P.elementAt c.block c.index
    ∧ P.elementAt c.block (c.index + c.numElements) ≤ c.block + P.BLOCK_SIZE := by
  have hin := elements_inside P
  have hmul := Nat.mul_le_mul_right P.ELEMENT_SIZE_IN_BYTES h.fits
  unfold Params.elementAt
  omega

/-- Claims that share no element share no byte. -/
theorem Blocks.bytes_apart (hB : Blocks P s) (h : ClaimOk P s c) (h' : ClaimOk P s c')
    (hapart : Apart c c') :
    P.elementAt c.block (c.index + c.numElements) ≤ P.elementAt c'.block c'.index
      ∨ P.elementAt c'.block (c'.index + c'.numElements) ≤ P.elementAt c.block c.index := by
  rcases eq_or_ne c.block c'.block with heq | hne
  · have hpos := h.pos
    have hpos' := h'.pos
    have hrange : c.index + c.numElements ≤ c'.index ∨ c'.index + c'.numElements ≤ c.index := by
      by_contra hover
      rw [not_or] at hover
      refine hapart heq (max c.index c'.index) ⟨?_, ?_⟩ ⟨?_, ?_⟩ <;> omega
    rcases hrange with hle | hle
    · refine .inl ?_
      have := Nat.mul_le_mul_right P.ELEMENT_SIZE_IN_BYTES hle
      unfold Params.elementAt
      omega
    · refine .inr ?_
      have := Nat.mul_le_mul_right P.ELEMENT_SIZE_IN_BYTES hle
      unfold Params.elementAt
      omega
  · have hin := h.inside
    have hin' := h'.inside
    have := hB.block_ne h.made h'.made hne
    omega

variable [DecidableEq τ]

theorem Claims.inv (h : Claims P s) (b : ℕ) : Inv P.setSize (s.sets b) :=
  inv_of_reachable (h.sets b)

/-- An element has one owner. -/
theorem Claims.owner_unique (h : Claims P s) {o o' : τ} (ho : o ∈ (s.sets b).owners k)
    (ho' : o' ∈ (s.sets b).owners k) : o = o' := by
  have hlen := (h.inv b).one_owner k
  match hl : (s.sets b).owners k with
  | [] => rw [hl] at ho; cases ho
  | [x] =>
    rw [hl] at ho ho'
    rw [List.mem_singleton.1 ho, List.mem_singleton.1 ho']
  | _ :: _ :: _ => rw [hl] at hlen; simp at hlen

/-- Claims of two owners share no element. -/
theorem Claims.apart_of_ne (h : Claims P s) (hc : ClaimOk P s c) (hc' : ClaimOk P s c')
    (hne : c.owner ≠ c'.owner) : Apart c c' := by
  intro hb k hk hk'
  have ho := hc.owned k hk
  rw [hb] at ho
  exact hne (h.owner_unique ho (hc'.owned k hk'))

omit [DecidableEq τ] in
theorem owner_of_claim {sets : ℕ → BitblockSet.State τ} (hc : c ∈ p.claim? P t sets) :
    c.owner = t := by
  unfold Pc.claim? at hc
  split at hc
  · obtain ⟨i, -, rfl⟩ := Option.map_eq_some_iff.1 hc
    rfl
  all_goals cases hc
  all_goals rfl

/-- A step that keeps what is claimed and may take elements nobody had. -/
theorem Claims.change (h : Claims P s) (hkeep : ∀ c, Claimed P s c → ClaimOk P s c → ClaimOk P s' c)
    (hlive : s'.live = s.live) (hheaders : s'.headers = s.headers)
    (hpc : ∀ u, u ≠ t → s'.pc u = s.pc u)
    (hsets : ∀ b, (BitblockSet.machine P.setSize).Reachable (s'.sets b))
    (hothers : ∀ u, u ≠ t → ∀ b, (s'.sets b).pc u = (s.sets b).pc u)
    (hmine : ∀ b, SetPcOk P (s'.pc t) b ((s'.sets b).pc t))
    (hclaim : ∀ c ∈ (s'.pc t).claim? P t s'.sets, c ∈ (s.pc t).claim? P t s.sets
      ∨ ClaimOk P s' c ∧ ∀ a ∈ s.live, Apart c a.claim)
    (hheld : PcHeld P s' t (s'.pc t)) : Claims P s' := by
  have keep : ∀ {u c}, c ∈ (s.pc u).claim? P u s.sets → ClaimOk P s' c := fun {u c} hc =>
    hkeep c (.inr ⟨u, hc⟩) (h.pending u c hc)
  have kept : ∀ u, u ≠ t → (s'.pc u).claim? P u s'.sets = (s.pc u).claim? P u s.sets := by
    intro u hu
    rw [hpc u hu]
    unfold Pc.claim?
    split
    · rw [hothers u hu]
    all_goals rfl
  have hheader : ∀ c, HeaderOk P s c → HeaderOk P s' c := fun c hc => by
    unfold HeaderOk
    rw [hheaders]
    exact hc
  refine ⟨hsets, fun u b => ?_, fun u c hc => ?_, ?_, ?_, fun u c hc => ?_, ?_, fun u => ?_⟩
  · rcases eq_or_ne u t with rfl | hu
    · exact hmine b
    · rw [hpc u hu, hothers u hu]
      exact h.setPc u b
  · rcases eq_or_ne u t with rfl | hu
    · rcases hclaim c hc with hold | hnew
      · exact keep hold
      · exact hnew.1
    · rw [kept u hu] at hc
      exact keep hc
  · rw [hlive]
    exact fun a ha => hkeep _ (.inl ⟨a, ha, rfl⟩) (h.live a ha)
  · rw [hlive]
    exact h.apart
  · rw [hlive]
    rcases eq_or_ne u t with rfl | hu
    · rcases hclaim c hc with hold | hnew
      · exact h.pendingApart u c hold
      · exact hnew.2
    · rw [kept u hu] at hc
      exact h.pendingApart u c hc
  · rw [hlive]
    exact fun a ha => ⟨(h.formed a ha).ptr, (h.formed a ha).bytes, hheader _ (h.formed a ha).header⟩
  · rcases eq_or_ne u t with rfl | hu
    · exact hheld
    · have hkept : PcHeld P s' u (s'.pc u) = PcHeld P s u (s.pc u) := by
        unfold PcHeld HeaderOk
        rw [hpc u hu, hheaders]
      rw [hkept]
      exact h.held u

/-- A place outside the sets and without a claim. -/
def Pc.Quiet : Pc τ → Prop
  | .scan .. => False
  | .subFree .. => False
  | .storeHint .. => False
  | .finalize .. => False
  | .storeCoreHint .. => False
  | .handOut .. => False
  | .releasing .. => False
  | _ => True

omit [DecidableEq τ] in
theorem Pc.Quiet.claim (hp : p.Quiet) (sets : ℕ → BitblockSet.State τ) : p.claim? P t sets = none := by
  cases p <;> first | rfl | exact hp.elim

omit [DecidableEq τ] in
theorem Pc.Quiet.setPcOk (hp : p.Quiet) {q : BitblockSet.Pc} : SetPcOk P p b q ↔ q = .idle := by
  cases p <;> first | exact Iff.rfl | exact hp.elim

omit [DecidableEq τ] in
theorem Pc.Quiet.held (hp : p.Quiet) : PcHeld P s t p := by
  cases p <;> trivial

theorem Claims.idle (h : Claims P s) (hp : (s.pc t).Quiet) (b : ℕ) : (s.sets b).pc t = .idle :=
  hp.setPcOk.1 (h.setPc t b)

/-- A step that leaves the sets, the headers and the allocations, and claims nothing more. -/
theorem Claims.goOn (h : Claims P s) (hidle : ∀ b, (s.sets b).pc t = .idle)
    (hok : ∀ b, SetPcOk P p b .idle)
    (hclaim : ∀ c ∈ p.claim? P t s.sets, c ∈ (s.pc t).claim? P t s.sets) (hheld : PcHeld P s t p)
    (hmade : s'.made = s.made) (hlive : s'.live = s.live) (hheaders : s'.headers = s.headers)
    (hsets : s'.sets = s.sets) (hpc : s'.pc = update s.pc t p) : Claims P s' := by
  have hmine : s'.pc t = p := by rw [hpc, update_self]
  refine h.change (t := t) (fun c _ hc => hc.keep (by rw [hmade]; exact fun _ => id) ?_) hlive hheaders
    (fun u hu => ?_) ?_ ?_ (fun b => ?_) (fun c hc => ?_) ?_
  · rw [hsets]
    exact fun _ _ => id
  · rw [hpc, update_of_ne hu]
  · rw [hsets]
    exact h.sets
  · rw [hsets]
    exact fun _ _ _ => rfl
  · rw [hmine, hsets, hidle]
    exact hok b
  · rw [hmine, hsets] at hc
    exact .inl (hclaim c hc)
  · rw [hmine]
    have hkept : PcHeld P s' t p = PcHeld P s t p := by
      unfold PcHeld HeaderOk
      rw [hheaders]
    rwa [hkept]

/-- A step that takes along the claim it has. -/
theorem Claims.pass {q : Pc τ} (h : Claims P s) (hp : s.pc t = q) (hmade : s'.made = s.made)
    (hlive : s'.live = s.live) (hheaders : s'.headers = s.headers) (hsets : s'.sets = s.sets)
    (hpc : s'.pc = update s.pc t p) (hidle : ∀ b, (s.sets b).pc t = .idle)
    (hok : ∀ b, SetPcOk P p b .idle) (hclaim : ∀ c ∈ p.claim? P t s.sets, c ∈ q.claim? P t s.sets)
    (hheld : PcHeld P s t p) : Claims P s' := by
  subst hp
  exact h.goOn hidle hok hclaim hheld hmade hlive hheaders hsets hpc

/-- A step from a quiet place to another. -/
theorem Claims.quiet (h : Claims P s) (hp : (s.pc t).Quiet) (hp' : p.Quiet)
    (hmade : s'.made = s.made) (hlive : s'.live = s.live) (hheaders : s'.headers = s.headers)
    (hsets : s'.sets = s.sets) (hpc : s'.pc = update s.pc t p) : Claims P s' :=
  h.goOn (h.idle hp) (fun _ => hp'.setPcOk.2 rfl) (by simp [hp'.claim]) hp'.held hmade hlive hheaders
    hsets hpc

/-- A step in the set of one block. -/
theorem Claims.setStep (h : Claims P s) {z : BitblockSet.State τ}
    (hz : (BitblockSet.machine P.setSize).Reachable z) (hpc : ∀ u, u ≠ t → z.pc u = (s.sets b).pc u)
    (hown : ∀ k, ∀ o ∈ (s.sets b).owners k, o ∈ z.owners k)
    (hidle : ∀ b', b' ≠ b → (s.sets b').pc t = .idle)
    (hthere : SetPcOk P p b (z.pc t)) (helse : ∀ b', b' ≠ b → SetPcOk P p b' .idle)
    (hclaim : ∀ c ∈ p.claim? P t (update s.sets b z), c ∈ (s.pc t).claim? P t s.sets
      ∨ ClaimOk P ((s.setSet b z).setPc t p) c ∧ ∀ a ∈ s.live, Apart c a.claim)
    (hheld : PcHeld P s t p) : Claims P ((s.setSet b z).setPc t p) := by
  have hmine : ((s.setSet b z).setPc t p).pc t = p := update_self ..
  refine h.change (t := t) (fun c _ hc => hc.keep (fun _ => id) fun k _ ho => ?_) rfl rfl
    (fun u hu => update_of_ne hu _ _) (fun b' => ?_) (fun u hu b' => ?_) (fun b' => ?_) ?_ ?_
  · show c.owner ∈ (update s.sets b z c.block).owners k
    rcases eq_or_ne c.block b with heq | hb
    · rw [heq, update_self]
      rw [heq] at ho
      exact hown k _ ho
    · rwa [update_of_ne hb]
  · show (BitblockSet.machine P.setSize).Reachable (update s.sets b z b')
    rcases eq_or_ne b' b with rfl | hb
    · rwa [update_self]
    · rw [update_of_ne hb]
      exact h.sets b'
  · show (update s.sets b z b').pc u = _
    rcases eq_or_ne b' b with rfl | hb
    · rw [update_self]
      exact hpc u hu
    · rw [update_of_ne hb]
  · rw [hmine]
    show SetPcOk P p b' ((update s.sets b z b').pc t)
    rcases eq_or_ne b' b with rfl | hb
    · rwa [update_self]
    · rw [update_of_ne hb, hidle b' hb]
      exact helse b' hb
  · rw [hmine]
    exact hclaim
  · rw [hmine]
    exact hheld

omit [DecidableEq τ] in
theorem quiet_enterOther (offset : ℕ) : (enterOther P R offset : Pc τ).Quiet := by
  unfold enterOther
  split_ifs <;> trivial

omit [DecidableEq τ] in
theorem quiet_enterChain : (enterChain P R : Pc τ).Quiet := by
  unfold enterChain
  split_ifs
  · exact quiet_enterOther 1
  · trivial

omit [DecidableEq τ] in
theorem quiet_miss (next : Option ℕ) : (miss P w next R : Pc τ).Quiet := by
  unfold miss
  split <;> first | exact quiet_enterChain | exact quiet_enterOther _ | trivial

omit [DecidableEq τ] in
theorem quiet_enterBlock : (enterBlock P s w b R).Quiet := by
  unfold enterBlock
  split_ifs
  · exact quiet_miss _
  · trivial

omit [DecidableEq τ] in
theorem quiet_enterReserve (current : ℕ) : (enterReserve P current R : Pc τ).Quiet := by
  unfold enterReserve
  split_ifs
  · trivial
  · exact quiet_enterOther 1

omit [DecidableEq τ] in
theorem searching_contiguous (n coreId : ℕ) :
    Scanning n (acquireFirstAvailableContiguous n coreId) := by
  unfold acquireFirstAvailableContiguous acquireFirstAvailable
  split_ifs with h hone
  · trivial
  · exact hone.symm
  · rfl

theorem setPc_of_eq (hp : s.pc t = p) : s.setPc t p = s := by
  subst hp
  unfold State.setPc
  rw [update_eq_self]

/-- Elements taken in a set were nobody's. -/
theorem Claims.takes (h : Claims P s) {z : BitblockSet.State τ} {n start : ℕ} (hb : b ∈ s.made)
    (ht : Takes P.setSize (s.sets b) z t n start) (p : Pc τ) :
    ClaimOk P ((s.setSet b z).setPc t p) ⟨b, start, n, t⟩
      ∧ ∀ a ∈ s.live, Apart ⟨b, start, n, t⟩ a.claim := by
  refine ⟨⟨hb, ht.pos, ht.le, ht.free.fits, ht.free.single, fun k hk => ?_⟩, fun a ha heq k hk hk' => ?_⟩
  · show t ∈ (update s.sets b z b).owners k
    rw [update_self, ht.owners]
    exact mem_grant.2 (.inr ⟨hk, rfl⟩)
  · have hown := (h.live a ha).owned k hk'
    replace heq : b = a.claim.block := heq
    rw [← heq] at hown
    exact ht.free.clear k hk ((h.inv b).owned_set k _ hown)

/-- A step of a search inside the set of its block. -/
theorem Claims.stepScan (h : Claims P s) (hB : Blocks P s) {z : BitblockSet.State τ} {spurious : Bool}
    (hp : s.pc t = .scan w b R) (hsome : ∀ i, (s.sets b).pc t ≠ .found i)
    (hz : BitblockSet.stepRun P.setSize (s.sets b) t spurious = some z) : Claims P (s.setSet b z) := by
  have hset := h.setPc t
  rw [hp] at hset
  have hb : b ∈ s.made := by
    refine hB.pointers.pc t b ?_
    rw [hp]
    exact List.mem_cons_self
  have hidle : ∀ b', b' ≠ b → (s.sets b').pc t = .idle := fun b' hb' => by
    simpa [SetPcOk, hb'] using hset b'
  have hreach : (BitblockSet.machine P.setSize).Reachable z :=
    (h.sets b).step (a := .run t spurious) hz
  -- the step inside the set says what the thread has afterwards
  have hstep : (∀ u, u ≠ t → z.pc u = (s.sets b).pc u)
      ∧ (∀ k, ∀ o ∈ (s.sets b).owners k, o ∈ z.owners k) ∧ Searching (R.numElements P) (z.pc t)
      ∧ ∀ c ∈ (Pc.scan w b R).claim? P t (update s.sets b z), c ∈ (s.pc t).claim? P t s.sets
        ∨ ClaimOk P ((s.setSet b z).setPc t (.scan w b R)) c ∧ ∀ a ∈ s.live, Apart c a.claim := by
    have hsearch : Searching (R.numElements P) ((s.sets b).pc t) := by
      simpa [SetPcOk] using hset b
    have hclaims : (Pc.scan w b R).claim? P t (update s.sets b z)
        = (z.pc t).taken?.map fun index => ⟨b, index, R.numElements P, t⟩ := by
      show ((update s.sets b z b).pc t).taken?.map _ = _
      rw [update_self]
    rw [hclaims, hp]
    rcases hsearch with hscan | ⟨index, hadv | hfound⟩
    · rcases scan_step ((h.inv b).pc _) hscan (hsome none) hz with ⟨hl, hscan'⟩ | ⟨start, ht, hpc⟩
      · refine ⟨hl.pc, by rw [hl.owners]; exact fun _ _ => id, .inl hscan', fun c hc => ?_⟩
        rw [taken_of_scanning hscan'] at hc
        cases hc
      · refine ⟨ht.pc, fun k o ho => ?_, .inr ⟨start, .inl hpc⟩, fun c hc => ?_⟩
        · rw [ht.owners]
          exact mem_grant.2 (.inl ho)
        · rw [hpc] at hc
          obtain rfl := Option.some.inj hc
          exact .inr (h.takes hb ht _)
    · obtain ⟨hl, hpc⟩ := advance_step hadv hz
      refine ⟨hl.pc, by rw [hl.owners]; exact fun _ _ => id, .inr ⟨index, .inr hpc⟩, fun c hc => .inl ?_⟩
      rw [hpc] at hc
      show c ∈ ((s.sets b).pc t).taken?.map _
      rw [hadv]
      exact hc
    · exact absurd hfound (hsome _)
  obtain ⟨hothers, hown, hsearch, hclaim⟩ := hstep
  have hgoal := h.setStep (p := .scan w b R) hreach hothers hown hidle (by simpa [SetPcOk] using hsearch)
    (fun b' hb' => by simp [SetPcOk, hb']) hclaim trivial
  rwa [setPc_of_eq (s := s.setSet b z) hp] at hgoal

/-- A search leaves the set of its block. -/
theorem Claims.leaveScan (h : Claims P s) (hp : s.pc t = .scan w b R) {i : Option ℕ}
    (hfound : (s.sets b).pc t = .found i) (hp' : ∀ b', SetPcOk P p b' .idle)
    (hclaim : ∀ c ∈ p.claim? P t (update s.sets b ((s.sets b).setPc t .idle)),
      c ∈ i.map fun index => (⟨b, index, R.numElements P, t⟩ : Claim τ))
    (hheld : PcHeld P s t p) : Claims P ((s.setSet b ((s.sets b).setPc t .idle)).setPc t p) := by
  have hset := h.setPc t
  rw [hp] at hset
  have hstep : (BitblockSet.machine P.setSize).step (s.sets b) (.run t false)
      = some ((s.sets b).setPc t .idle) := by
    show BitblockSet.stepRun P.setSize (s.sets b) t false = _
    simp only [BitblockSet.stepRun, hfound]
  refine h.setStep ((h.sets b).step hstep) (fun u hu => update_of_ne hu _ _) (fun _ _ => id)
    (fun b' hb' => ?_) ?_ (fun b' _ => hp' b') (fun c hc => .inl ?_) hheld
  · simpa [SetPcOk, hb'] using hset b'
  · rw [pc_setPc]
    exact hp' b
  · rw [hp]
    show c ∈ ((s.sets b).pc t).taken?.map _
    rw [hfound]
    exact hclaim c hc

theorem Claims.stepSearch {spurious : Bool} (h : Claims P s) (hB : Blocks P s)
    (hs : stepSearch P s t spurious = some s') : Claims P s' := by
  have quiet : ∀ {p}, (s.pc t).Quiet → p.Quiet → Claims P (s.setPc t p) :=
    fun hq hp => h.quiet hq hp rfl rfl rfl rfl rfl
  unfold BitblockResource.stepSearch at hs
  split at hs <;> rename_i hp
  · -- loadCoreHint
    split at hs <;> obtain rfl := Option.some.inj hs <;> refine quiet (by rw [hp]; trivial) ?_
    · split_ifs
      · exact quiet_enterBlock
      · trivial
    · trivial
  · -- loadArenaHint
    split at hs <;> obtain rfl := Option.some.inj hs <;> refine quiet (by rw [hp]; trivial) ?_
    · exact quiet_enterBlock
    · exact quiet_enterChain
  · -- loadFirst
    split at hs <;> obtain rfl := Option.some.inj hs <;> exact quiet (by rw [hp]; trivial) trivial
  · -- reloadFirst
    split at hs
    · obtain rfl := Option.some.inj hs
      exact quiet (by rw [hp]; trivial) trivial
    · cases hs
  · -- loadOther
    split at hs <;> obtain rfl := Option.some.inj hs <;> refine quiet (by rw [hp]; trivial) ?_
    · trivial
    · exact quiet_enterOther _
  · -- loadFree
    rename_i w block R
    have hq : (s.pc t).Quiet := by
      rw [hp]
      trivial
    split_ifs at hs <;> obtain rfl := Option.some.inj hs
    · exact quiet hq (quiet_miss _)
    · have hstep : (BitblockSet.machine P.setSize).step (s.sets block)
          (.acquireFirstAvailableContiguous t (R.numElements P) R.coreId) = some
            ((s.sets block).setPc t
              (acquireFirstAvailableContiguous (R.numElements P) R.coreId)) :=
        if_pos (h.idle hq block)
      have hscan := searching_contiguous (R.numElements P) R.coreId
      refine h.setStep ((h.sets block).step hstep) (fun u hu => update_of_ne hu _ _)
        (fun _ _ => id) (fun b' _ => h.idle hq b') ?_ (fun b' hb' => by simp [SetPcOk, hb'])
        (fun c hc => ?_) trivial
      · rw [pc_setPc]
        have hsearch : Searching (R.numElements P) _ := .inl hscan
        simpa [SetPcOk] using hsearch
      · replace hc : c ∈ ((update s.sets block ((s.sets block).setPc t
          (acquireFirstAvailableContiguous (R.numElements P) R.coreId)) block).pc t).taken?.map _ := hc
        rw [update_self, pc_setPc, taken_of_scanning hscan] at hc
        cases hc
  · -- scan
    split at hs <;> rename_i hfound
    · obtain rfl := Option.some.inj hs
      exact h.leaveScan hp hfound (fun _ => rfl) (fun c hc => hc) trivial
    · obtain rfl := Option.some.inj hs
      exact h.leaveScan hp hfound (fun b' => (quiet_miss _).setPcOk.2 rfl)
        (fun c hc => by rw [(quiet_miss _).claim] at hc; cases hc) (quiet_miss _).held
    · rename_i hsome
      obtain ⟨z, hz, rfl⟩ := Option.map_eq_some_iff.1 hs
      refine h.stepScan hB hp (fun i hi => ?_) hz
      cases i with
      | none => exact hfound hi
      | some index => exact hsome index hi
  · cases hs

/-- The headers of other elements are written. -/
theorem Claims.withHeaders (h : Claims P s) {headers : ℕ → ℕ × ℕ}
    (hlive : ∀ a ∈ s.live, headers (P.elementAt a.claim.block a.claim.index)
      = s.headers (P.elementAt a.claim.block a.claim.index))
    (hheld : ∀ u, PcHeld P { s with headers := headers } u (s.pc u)) :
    Claims P { s with headers := headers } :=
  ⟨h.sets, h.setPc, fun u c hc => (h.pending u c hc).keep (fun _ => id) (fun _ _ => id),
    fun a ha => (h.live a ha).keep (fun _ => id) (fun _ _ => id), h.apart, h.pendingApart,
    fun a ha => ⟨(h.formed a ha).ptr, (h.formed a ha).bytes,
      (hlive a ha).trans (h.formed a ha).header⟩, hheld⟩

/-- A call keeps what it knows when its header is not written. -/
theorem Claims.heldKept (h : Claims P s) {headers : ℕ → ℕ × ℕ} (u : τ)
    (hsame : ∀ c ∈ (s.pc u).claim? P u s.sets, headers (P.elementAt c.block c.index)
      = s.headers (P.elementAt c.block c.index)) :
    PcHeld P { s with headers := headers } u (s.pc u) := by
  have hu := h.held u
  cases hp : s.pc u <;> rw [hp] at hu hsame <;> first
    | exact hu
    | exact (hsame _ rfl).trans hu

omit [DecidableEq τ] in
/-- A write into elements leaves the headers of claims apart from them. -/
theorem header_ne (hB : Blocks P s) (hc : ClaimOk P s c) (hc' : ClaimOk P s c') (hapart : Apart c c')
    {x : ℕ} (hle : P.elementAt c.block c.index ≤ x)
    (hlt : x < P.elementAt c.block (c.index + c.numElements)) :
    P.elementAt c'.block c'.index ≠ x := by
  have hpos := elementSize_pos P
  have hmul := Nat.mul_le_mul_right P.ELEMENT_SIZE_IN_BYTES hc'.pos
  have hadd := elementAt_add P c'.block c'.index c'.numElements
  rcases hB.bytes_apart hc hc' hapart with hbytes | hbytes <;> omega

/-- The header of elements is written. -/
theorem Claims.finalize (h : Claims P s) (hB : Blocks P s)
    (hc : c ∈ (s.pc t).claim? P t s.sets) (hfree : ∀ headers : ℕ → ℕ × ℕ,
      PcHeld P { s with headers := headers } t (s.pc t)) (value : ℕ × ℕ) :
    Claims P { s with headers := update s.headers (P.elementAt c.block c.index) value } := by
  have hok := h.pending t c hc
  have hin : P.elementAt c.block c.index < P.elementAt c.block (c.index + c.numElements) := by
    have hpos := elementSize_pos P
    have hmul := Nat.mul_le_mul_right P.ELEMENT_SIZE_IN_BYTES hok.pos
    have hadd := elementAt_add P c.block c.index c.numElements
    omega
  refine h.withHeaders (fun a ha => update_of_ne ?_ _ _) fun u => ?_
  · exact header_ne hB hok (h.live a ha) (h.pendingApart t c hc a ha) le_rfl hin
  · rcases eq_or_ne u t with rfl | hu
    · exact hfree _
    · refine h.heldKept u fun c' hc' => update_of_ne ?_ _ _
      have hne : c.owner ≠ c'.owner := by
        rw [owner_of_claim hc, owner_of_claim hc']
        exact hu.symm
      exact header_ne hB hok (h.pending u c' hc') (h.apart_of_ne hok (h.pending u c' hc') hne) le_rfl hin

/-- An allocation is handed out. -/
theorem Claims.handOut (h : Claims P s) {index : ℕ} (hp : s.pc t = .handOut b index R) :
    Claims P ({ s with live := allocation P t b index R :: s.live }.setPc t .idle) := by
  have hc : (⟨b, index, R.numElements P, t⟩ : Claim τ) ∈ (s.pc t).claim? P t s.sets := by
    rw [hp]
    rfl
  have hset := h.setPc t
  have hheader := h.held t
  rw [hp] at hset hheader
  have hok := h.pending t _ hc
  have keep : ∀ {c}, ClaimOk P s c →
      ClaimOk P ({ s with live := allocation P t b index R :: s.live }.setPc t .idle) c :=
    fun hc => hc.keep (fun _ => id) (fun _ _ => id)
  have claims : ∀ u c, c ∈ ((update s.pc t .idle) u).claim? P u s.sets →
      u ≠ t ∧ c ∈ (s.pc u).claim? P u s.sets := by
    intro u c hc
    rcases eq_or_ne u t with rfl | hu
    · rw [update_self] at hc
      cases hc
    · rw [update_of_ne hu] at hc
      exact ⟨hu, hc⟩
  refine ⟨h.sets, fun u b' => ?_, fun u c' hc' => keep (h.pending u c' (claims u c' hc').2),
    fun a ha => ?_, List.pairwise_cons.2 ⟨fun a ha => h.pendingApart t _ hc a ha, h.apart⟩,
    fun u c' hc' a ha => ?_, fun a ha => ?_, fun u => ?_⟩
  · show SetPcOk P (update s.pc t .idle u) b' ((s.sets b').pc u)
    rcases eq_or_ne u t with rfl | hu
    · rw [update_self]
      exact hset b'
    · rw [update_of_ne hu]
      exact h.setPc u b'
  · rcases List.mem_cons.1 ha with rfl | ha
    · exact keep hok
    · exact keep (h.live a ha)
  · obtain ⟨hu, hc'⟩ := claims u c' hc'
    rcases List.mem_cons.1 ha with rfl | ha
    · refine h.apart_of_ne (h.pending u c' hc') hok ?_
      rw [owner_of_claim hc']
      exact hu
    · exact h.pendingApart u c' hc' a ha
  · rcases List.mem_cons.1 ha with rfl | ha
    · refine ⟨rfl, elementsForBytes_spec ?_, hheader⟩
      have hpos := hok.pos
      show R.numElements P ≠ 0
      dsimp only at hpos
      omega
    · exact ⟨(h.formed a ha).ptr, (h.formed a ha).bytes, (h.formed a ha).header⟩
  · show PcHeld P s u (update s.pc t .idle u)
    rcases eq_or_ne u t with rfl | hu
    · rw [update_self]
      trivial
    · rw [update_of_ne hu]
      exact h.held u

theorem Claims.stepFound (h : Claims P s) (hB : Blocks P s) (hs : stepFound P s t = some s') :
    Claims P s' := by
  have hset := h.setPc t
  have hheld := h.held t
  unfold BitblockResource.stepFound at hs
  split at hs <;> rename_i hp
  · rw [hp] at hset
    obtain rfl := Option.some.inj hs
    exact h.pass hp rfl rfl rfl rfl rfl hset (fun _ => rfl) (fun _ => id) trivial
  · rw [hp] at hset
    obtain rfl := Option.some.inj hs
    exact h.pass hp rfl rfl rfl rfl rfl hset (fun _ => rfl) (fun _ => id) trivial
  · rw [hp] at hset
    obtain rfl := Option.some.inj hs
    exact h.pass hp rfl rfl rfl rfl rfl hset (fun _ => rfl) (fun _ => id) trivial
  · rw [hp] at hset
    obtain rfl := Option.some.inj hs
    exact h.pass hp rfl rfl rfl rfl rfl hset (fun _ => rfl) (fun _ => id) trivial
  · -- finalize
    rename_i w b index R
    have hc : (⟨b, index, R.numElements P, t⟩ : Claim τ) ∈ (s.pc t).claim? P t s.sets := by
      rw [hp]
      rfl
    have hwritten := h.finalize hB hc (fun _ => by rw [hp]; trivial) (b, R.numElements P)
    rw [hp] at hset
    obtain rfl := Option.some.inj hs
    split_ifs
    · exact hwritten.pass hp rfl rfl rfl rfl rfl hset (fun _ => rfl) (fun _ => id)
        (update_self (P.elementAt b index) _ s.headers)
    · exact hwritten.pass hp rfl rfl rfl rfl rfl hset (fun _ => rfl) (fun _ => id)
        (update_self (P.elementAt b index) _ s.headers)
  · rw [hp] at hset hheld
    obtain rfl := Option.some.inj hs
    exact h.pass hp rfl rfl rfl rfl rfl hset (fun _ => rfl) (fun _ => id) hheld
  · obtain rfl := Option.some.inj hs
    exact h.handOut hp
  · cases hs

theorem Claims.stepAdd {spurious : Bool} {space : Option ℕ} (h : Claims P s) (hB : Blocks P s)
    (hs : stepAdd P s t spurious space = some s') : Claims P s' := by
  unfold BitblockResource.stepAdd at hs
  split at hs <;> rename_i hp
  · obtain rfl := Option.some.inj hs
    exact h.quiet (by rw [hp]; trivial) (quiet_enterReserve _) rfl rfl rfl rfl rfl
  · split_ifs at hs <;> obtain rfl := Option.some.inj hs
    · exact h.quiet (by rw [hp]; trivial) (by exact trivial) rfl rfl rfl rfl rfl
    · exact h.quiet (by rw [hp]; trivial) (quiet_enterReserve _) rfl rfl rfl rfl rfl
  · -- upstream
    split at hs
    · obtain rfl := Option.some.inj hs
      exact h.quiet (by rw [hp]; trivial) (by exact trivial) rfl rfl rfl rfl rfl
    · rename_i block
      split_ifs at hs with hfresh
      obtain rfl := Option.some.inj hs
      have hnew := not_made_of_fresh hfresh
      have hq : (s.pc t).Quiet := by
        rw [hp]
        trivial
      -- nobody is in the set of a block that was not there
      have hidle : ∀ u, (s.sets block).pc u = .idle := fun u => by
        have hset := h.setPc u block
        have hptr := hB.pointers.pc u block
        unfold SetPcOk at hset
        split at hset <;> rename_i hpu <;> first
          | exact hset
          | rw [hpu] at hptr
            rwa [if_neg (fun heq => hnew (hptr (List.mem_singleton.2 heq)))] at hset
      refine h.change (t := t) (fun c _ hc => hc.keep (fun b hb => List.mem_cons_of_mem _ hb)
        fun k _ ho => ?_) rfl rfl (fun u hu => update_of_ne hu _ _) (fun b => ?_) (fun u _ b => ?_)
        (fun b => ?_) (fun c hc => ?_) ?_
      · show c.owner ∈ (update s.sets block (newSet P.setSize) c.block).owners k
        rwa [update_of_ne (fun heq => hnew (by rw [← heq]; exact hc.made))]
      · show (BitblockSet.machine P.setSize).Reachable (update s.sets block (newSet P.setSize) b)
        rcases eq_or_ne b block with rfl | hne
        · rw [update_self]
          exact .init ⟨rfl, rfl, rfl⟩
        · rw [update_of_ne hne]
          exact h.sets b
      · show (update s.sets block (newSet P.setSize) b).pc u = _
        rcases eq_or_ne b block with rfl | hne
        · rw [update_self, hidle u]
          rfl
        · rw [update_of_ne hne]
      · show SetPcOk P (update s.pc t _ t) b ((update s.sets block (newSet P.setSize) b).pc t)
        rw [update_self]
        rcases eq_or_ne b block with rfl | hne
        · rw [update_self]
          rfl
        · rw [update_of_ne hne]
          exact h.idle hq b
      · replace hc : c ∈ (update s.pc t _ t).claim? P t _ := hc
        rw [update_self] at hc
        cases hc
      · show PcHeld P _ t (update s.pc t _ t)
        rw [update_self]
        trivial
  · obtain rfl := Option.some.inj hs
    exact h.quiet (by rw [hp]; trivial) (quiet_enterOther _) rfl rfl rfl rfl rfl
  · obtain rfl := Option.some.inj hs
    exact h.quiet (by rw [hp]; trivial) (by exact trivial) rfl rfl rfl rfl rfl
  · split_ifs at hs <;> obtain rfl := Option.some.inj hs <;>
      exact h.quiet (by rw [hp]; trivial) (by exact trivial) rfl rfl rfl rfl rfl
  · cases hs

theorem Claims.stepFree {spurious : Bool} (h : Claims P s)
    (hs : stepFree P s t spurious = some s') : Claims P s' := by
  have hset := h.setPc t
  have hheld := h.held t
  unfold BitblockResource.stepFree at hs
  split at hs <;> rename_i hp
  · -- releasing
    rename_i c coreId
    rw [hp] at hset hheld
    have hidle : ∀ b, b ≠ c.block → (s.sets b).pc t = .idle := fun b hb => by
      simpa [SetPcOk, hb] using hset b
    split at hs <;> rename_i hret
    · obtain rfl := Option.some.inj hs
      have hstep : (BitblockSet.machine P.setSize).step (s.sets c.block) (.run t false)
          = some ((s.sets c.block).setPc t .idle) := by
        show BitblockSet.stepRun P.setSize (s.sets c.block) t false = _
        simp only [BitblockSet.stepRun, hret]
      exact h.setStep ((h.sets c.block).step hstep) (fun u hu => update_of_ne hu _ _)
        (fun _ _ => id) hidle (pc_setPc _) (fun _ _ => rfl) (fun c hc => by cases hc) trivial
    · obtain ⟨z, hz, rfl⟩ := Option.map_eq_some_iff.1 hs
      have hrel : Releasing c.index c.numElements ((s.sets c.block).pc t) := by
        have hthere := hset c.block
        simp only [SetPcOk, if_true] at hthere
        exact hthere.resolve_right (hret _)
      have hreach : (BitblockSet.machine P.setSize).Reachable z :=
        (h.sets c.block).step (a := .run t spurious) hz
      have hgoal : Claims P ((s.setSet c.block z).setPc t (.releasing c coreId)) := by
        rcases release_step (h.inv c.block) hheld hrel hz with ⟨hl, hrel'⟩ | ⟨hcl, hpc⟩
        · exact h.setStep hreach hl.pc (by rw [hl.owners]; exact fun _ _ => id) hidle
            (by simpa [SetPcOk] using Or.inl hrel') (fun b hb => by simp [SetPcOk, hb])
            (fun c hc => by cases hc) hheld
        · exact h.setStep hreach hcl.pc (by rw [hcl.owners]; exact fun _ _ => id) hidle
            (by simp [SetPcOk, hpc]) (fun b hb => by simp [SetPcOk, hb])
            (fun c hc => by cases hc) hheld
      rwa [setPc_of_eq (s := s.setSet c.block z) hp] at hgoal
  · obtain rfl := Option.some.inj hs
    exact h.quiet (by rw [hp]; trivial) (by exact trivial) rfl rfl rfl rfl rfl
  · obtain rfl := Option.some.inj hs
    exact h.quiet (by rw [hp]; trivial) (by exact trivial) rfl rfl rfl rfl rfl
  · obtain rfl := Option.some.inj hs
    exact h.quiet (by rw [hp]; trivial) (by exact trivial) rfl rfl rfl rfl rfl
  · cases hs

omit [DecidableEq τ] in
/-- A deallocation reads the allocation's claim. -/
theorem Formed.fromHeader {a : Allocation τ} (h : Formed P s a) : fromHeader P s a = a.claim := by
  have hptr : a.ptr - HEADER_SIZE = P.elementAt a.claim.block a.claim.index := by
    rw [h.ptr]
    exact Nat.add_sub_cancel ..
  have hheader := h.header
  unfold HeaderOk at hheader
  unfold BitblockResource.fromHeader
  rw [hptr, hheader]
  unfold Params.elementAt
  dsimp only
  rw [Nat.add_sub_cancel_left, Nat.mul_div_cancel _ (elementSize_pos P)]

omit [DecidableEq τ] in
theorem ClaimOk.valid (h : ClaimOk P s c) :
    validateRequest P.setSize c.index c.numElements = .success := by
  have hpos := h.pos
  have hle := h.le
  have hfits : c.index + c.numElements ≤ P.setSize.SIZE_IN_BITS := h.fits
  unfold validateRequest
  rw [if_neg (by omega), if_neg (by omega), if_neg (by omega)]

theorem Claims.perm {a : Allocation τ} (h : Claims P s) (ha : a ∈ s.live) :
    (a :: s.live.erase a).Pairwise fun a a' => Apart a.claim a'.claim :=
  (List.perm_cons_erase ha).pairwise h.apart fun h => h.symm

/-- An allocation is no longer counted. -/
theorem Claims.forget (h : Claims P s) (a : Allocation τ) :
    Claims P { s with live := s.live.erase a } := by
  have keep : ∀ {c}, ClaimOk P s c → ClaimOk P { s with live := s.live.erase a } c :=
    fun hc => hc.keep (fun _ => id) (fun _ _ => id)
  have old : ∀ b ∈ s.live.erase a, b ∈ s.live := fun _ hb => List.mem_of_mem_erase hb
  exact ⟨h.sets, h.setPc, fun u c hc => keep (h.pending u c hc),
    fun b hb => keep (h.live b (old b hb)), h.apart.sublist List.erase_sublist,
    fun u c hc b hb => h.pendingApart u c hc b (old b hb), fun b hb =>
    ⟨(h.formed b (old b hb)).ptr, (h.formed b (old b hb)).bytes, (h.formed b (old b hb)).header⟩, h.held⟩

/-- A release is called on the elements of an allocation. -/
theorem Claims.deallocate (h : Claims P s) {a : Allocation τ} {coreId : ℕ} (ha : a ∈ s.live)
    (hp : s.pc t = .idle) : Claims P (({ s with live := s.live.erase a }.setSet a.claim.block
      (release P (s.sets a.claim.block) t a.claim)).setPc t (.releasing a.claim coreId)) := by
  have hok := h.live a ha
  have hq : (s.pc t).Quiet := by
    rw [hp]
    trivial
  have hidle := h.idle hq a.claim.block
  have howns : (s.sets a.claim.block).OwnsRange a.claim.owner a.claim.index a.claim.numElements :=
    fun k hk => hok.owned _ ⟨Nat.le_add_right .., by omega⟩
  have hstep : (BitblockSet.machine P.setSize).step (s.sets a.claim.block)
      (.release t a.claim.owner a.claim.index a.claim.numElements)
      = some (((s.sets a.claim.block).revoke a.claim.owner a.claim.index a.claim.numElements).setPc t
        (.releaseHint a.claim.index a.claim.numElements)) :=
    (if_pos ⟨hidle, howns⟩).trans (if_pos hok.valid)
  -- what is still claimed shares no element with the allocation
  have apart : ∀ c, Claimed P { s with live := s.live.erase a } c → Apart c a.claim := by
    rintro c (⟨a', ha', rfl⟩ | ⟨u, hc⟩)
    · exact ((List.pairwise_cons.1 (h.perm ha)).1 a' ha').symm
    · exact h.pendingApart u c hc a ha
  unfold release
  rw [if_pos hok.valid]
  refine (h.forget a).change (t := t) (fun c hc hok' => hok'.keep (fun _ => id) fun k hk ho => ?_)
    rfl rfl (fun u hu => update_of_ne hu _ _) (fun b => ?_) (fun u hu b => ?_) (fun b => ?_)
    (fun c hc => ?_) ?_
  · replace ho : c.owner ∈ (s.sets c.block).owners k := ho
    show c.owner ∈ (update s.sets a.claim.block _ c.block).owners k
    rcases eq_or_ne c.block a.claim.block with heq | hne
    · rw [heq, update_self]
      rw [heq] at ho
      have hout : ¬ (a.claim.index ≤ k ∧ k < a.claim.index + a.claim.numElements) :=
        apart c hc heq k hk
      show c.owner ∈ if a.claim.index ≤ k ∧ k < a.claim.index + a.claim.numElements then _ else _
      rwa [if_neg hout]
    · rwa [update_of_ne hne]
  · show (BitblockSet.machine P.setSize).Reachable (update s.sets a.claim.block _ b)
    rcases eq_or_ne b a.claim.block with rfl | hne
    · rw [update_self]
      exact (h.sets a.claim.block).step hstep
    · rw [update_of_ne hne]
      exact h.sets b
  · show (update s.sets a.claim.block _ b).pc u = _
    rcases eq_or_ne b a.claim.block with rfl | hne
    · rw [update_self]
      exact update_of_ne hu _ _
    · rw [update_of_ne hne]
  · show SetPcOk P (update s.pc t _ t) b ((update s.sets a.claim.block _ b).pc t)
    rw [update_self]
    rcases eq_or_ne b a.claim.block with rfl | hne
    · rw [update_self, pc_setPc]
      simp [SetPcOk, Releasing]
    · rw [update_of_ne hne, h.idle hq]
      simp [SetPcOk, hne]
  · replace hc : c ∈ (update s.pc t _ t).claim? P t _ := hc
    rw [update_self] at hc
    cases hc
  · show PcHeld P _ t (update s.pc t _ t)
    rw [update_self]
    exact hok.single

/-- A caller writes into its allocation. -/
theorem Claims.write (h : Claims P s) (hB : Blocks P s) {a : Allocation τ} {x : ℕ} (ha : a ∈ s.live)
    (hle : a.ptr ≤ x) (hlt : x < a.ptr + a.bytes) (value : ℕ × ℕ) :
    Claims P { s with headers := update s.headers x value } := by
  have hok := h.live a ha
  have hf := h.formed a ha
  have hptr := hf.ptr
  have hbytes := hf.bytes
  have hadd := elementAt_add P a.claim.block a.claim.index a.claim.numElements
  have hin : P.elementAt a.claim.block a.claim.index < x
      ∧ x < P.elementAt a.claim.block (a.claim.index + a.claim.numElements) := by
    unfold HEADER_SIZE at hptr hbytes
    omega
  refine h.withHeaders (fun a' ha' => update_of_ne ?_ _ _) fun u =>
    h.heldKept u fun c hc => update_of_ne ?_ _ _
  · by_cases heq : a' = a
    · subst heq
      omega
    · have hmem : a' ∈ s.live.erase a := (List.mem_erase_of_ne heq).2 ha'
      exact header_ne hB hok (h.live a' ha') ((List.pairwise_cons.1 (h.perm ha)).1 a' hmem) hin.1.le
        hin.2
  · exact header_ne hB hok (h.pending u c hc) (h.pendingApart u c hc a ha).symm hin.1.le hin.2

end Claims

/-! ### Every run -/

/-- The blocks and the claims are in order. -/
structure Sound [DecidableEq τ] (P : Params) (s : State τ) : Prop where
  blocks : Blocks P s
  claims : Claims P s

section Sound

variable [DecidableEq τ] {s s' : State τ} {t : τ}

/-- The parts of a call's step. -/
theorem stepRun_cases {spurious : Bool} {space : Option ℕ} (hs : stepRun P s t spurious space = some s') :
    (((∃ R, s.pc t = .refuse R) ∨ s.pc t = .freed) ∧ s' = s.setPc t .idle)
      ∨ stepSearch P s t spurious = some s' ∨ stepFound P s t = some s'
      ∨ stepAdd P s t spurious space = some s' ∨ stepFree P s t spurious = some s' := by
  unfold stepRun at hs
  split at hs
  · rename_i R hp
    exact .inl ⟨.inl ⟨R, hp⟩, (Option.some.inj hs).symm⟩
  · rename_i hp
    exact .inl ⟨.inr hp, (Option.some.inj hs).symm⟩
  · rcases Option.or_eq_some_iff.1 hs with hs | ⟨-, hs⟩ <;>
      rcases Option.or_eq_some_iff.1 hs with hs | ⟨-, hs⟩
    · exact .inr (.inl hs)
    · exact .inr (.inr (.inl hs))
    · exact .inr (.inr (.inr (.inl hs)))
    · exact .inr (.inr (.inr (.inr hs)))

theorem Sound.run {spurious : Bool} {space : Option ℕ} (h : Sound P s)
    (hs : stepRun P s t spurious space = some s') : Sound P s' := by
  have hB := h.blocks
  have hC := h.claims
  rcases stepRun_cases hs with ⟨hp, rfl⟩ | hs | hs | hs | hs
  · have hq : (s.pc t).Quiet ∧ ¬ (s.pc t).Reserves := by
      rcases hp with ⟨R, hp⟩ | hp <;> rw [hp] <;> exact ⟨trivial, id⟩
    exact ⟨hB.goOn (by simp [Pc.blocks]) ⟨id, trivial⟩ hq.2,
      hC.quiet hq.1 (by trivial) rfl rfl rfl rfl rfl⟩
  · exact ⟨hB.stepSearch hs, hC.stepSearch hB hs⟩
  · refine ⟨hB.stepFound (fun b i R hp => ?_) hs, hC.stepFound hB hs⟩
    have hheld := hC.held t
    rw [hp] at hheld
    exact congrArg Prod.fst hheld
  · exact ⟨hB.stepAdd hs, hC.stepAdd hB hs⟩
  · exact ⟨hB.stepFree hs, hC.stepFree hs⟩

theorem Sound.step {a : Action τ} (h : Sound P s) (hs : step P s a = some s') : Sound P s' := by
  have hB := h.blocks
  have hC := h.claims
  have hptr := hB.pointers
  cases a with
  | allocate t R =>
    simp only [BitblockResource.step] at hs
    split_ifs at hs with hp <;> obtain rfl := Option.some.inj hs <;>
      exact ⟨hB.keep ⟨hptr.next, hptr.first, hptr.hint, hptr.last, hptr.pc⟩ rfl rfl rfl rfl
        (by simp [Pc.blocks]) ⟨id, trivial⟩ (by rw [hp]; exact id),
        hC.quiet (by rw [hp]; trivial) (by trivial) rfl rfl rfl rfl rfl⟩
  | deallocate t a coreId =>
    simp only [BitblockResource.step] at hs
    split_ifs at hs with hp
    obtain ⟨hp, ha⟩ := hp
    obtain rfl := Option.some.inj hs
    rw [(hC.formed a ha).fromHeader]
    refine ⟨?_, hC.deallocate ha hp⟩
    have hforget : Blocks P { s with live := s.live.erase a } :=
      hB.withPointers rfl rfl rfl rfl ⟨hptr.next, hptr.first, hptr.hint, hptr.last, hptr.pc⟩
    exact (hforget.setSet _ _).goOn (fun b hb => List.mem_singleton.1 hb ▸ (hC.live a ha).made)
      ⟨id, trivial⟩ (show ¬ (s.pc t).Reserves by rw [hp]; exact id)
  | deallocateNull t =>
    simp only [BitblockResource.step] at hs
    split_ifs at hs with hp
    obtain rfl := Option.some.inj hs
    exact ⟨hB.goOn (by simp [Pc.blocks]) ⟨id, trivial⟩ (by rw [hp]; exact id),
      hC.quiet (by rw [hp]; trivial) (by trivial) rfl rfl rfl rfl rfl⟩
  | write a x value =>
    simp only [BitblockResource.step] at hs
    split_ifs at hs with ha
    obtain rfl := Option.some.inj hs
    exact ⟨hB.withPointers rfl rfl rfl rfl ⟨hptr.next, hptr.first, hptr.hint, hptr.last, hptr.pc⟩,
      hC.write hB ha.1 ha.2.1 ha.2.2 value⟩
  | run t spurious space => exact h.run hs

/-- What the constructor's loop has built after `n` arenas. -/
structure Built (P : Params) (s : State τ) (n : ℕ) : Prop where
  idle : s.pc = fun _ => .idle
  reserving : s.reserving = []
  live : s.live = []
  total : s.totalBlocks = s.made.length
  le : s.made.length ≤ n
  aligned : ∀ b ∈ s.made, 64 ∣ b
  apart : s.made.Pairwise fun b b' => b + P.BLOCK_SIZE ≤ b' ∨ b' + P.BLOCK_SIZE ≤ b
  sets : s.sets = fun _ => newSet P.setSize
  next : s.nextBlock = fun _ => none
  first : ∀ k b, s.firstBlock k = some b ↔ b ∈ s.made ∧ s.arenaIndex b = k
  arena : ∀ b ∈ s.made, s.arenaIndex b < n
  hint : s.allocationHint = fun _ => none
  last : s.lastBlock = fun _ => none
  count : ∀ b ∈ s.made, s.freeCount b = P.ELEMENTS_PER_BLOCK

omit [DecidableEq τ] in
theorem built_construct {spaces : ℕ → Option ℕ} {n : ℕ} (h : ∀ arena < n, ∀ block,
    spaces arena = some block → (construct (τ := τ) P spaces arena).Fresh P block) :
    Built P (construct (τ := τ) P spaces n) n := by
  induction n with
  | zero =>
    exact ⟨rfl, rfl, rfl, rfl, le_rfl, fun b hb => (List.not_mem_nil hb).elim, .nil, rfl, rfl,
      fun k b => by simp [construct], fun b hb => (List.not_mem_nil hb).elim, rfl, rfl,
      fun b hb => (List.not_mem_nil hb).elim⟩
  | succ n ih =>
    have hn := ih fun arena ha => h arena (Nat.lt_succ_of_lt ha)
    have hlt : ∀ b ∈ (construct (τ := τ) P spaces n).made,
        (construct (τ := τ) P spaces n).arenaIndex b < n + 1 :=
      fun b hb => Nat.lt_succ_of_lt (hn.arena b hb)
    cases hsp : spaces n with
    | none =>
      simp only [construct, hsp]
      exact { hn with le := hn.le.trans (Nat.le_succ n), arena := hlt }
    | some block =>
      have hfresh := h n (Nat.lt_succ_self n) block hsp
      have hnew := not_made_of_fresh hfresh
      have hne : ∀ b ∈ (construct (τ := τ) P spaces n).made, b ≠ block := fun b hb heq =>
        hnew (heq ▸ hb)
      simp only [construct, hsp]
      refine ⟨hn.idle, hn.reserving, hn.live, ?_, ?_, fun b hb => ?_, List.pairwise_cons.2
        ⟨fun b hb => (hfresh.2 b hb).symm, hn.apart⟩, ?_, ?_, fun k b => ?_, fun b hb => ?_, hn.hint,
        hn.last, fun b hb => ?_⟩
      · show _ + 1 = List.length (block :: _)
        rw [hn.total, List.length_cons]
      · exact Nat.succ_le_succ hn.le
      · rcases List.mem_cons.1 hb with rfl | hb
        · exact hfresh.1
        · exact hn.aligned b hb
      · show update _ block _ = _
        rw [hn.sets, update_eq_self_iff]
      · show update _ block _ = _
        rw [hn.next, update_eq_self_iff]
      · show update (construct P spaces n).firstBlock n (some block) k = some b
          ↔ b ∈ block :: _ ∧ update (construct P spaces n).arenaIndex block n b = k
        rcases eq_or_ne b block with rfl | hb
        · rw [update_self]
          rcases eq_or_ne k n with rfl | hk
          · simp
          · rw [update_of_ne hk, hn.first]
            exact iff_of_false (fun hold => hnew hold.1) fun hold => hk hold.2.symm
        · rw [update_of_ne hb, List.mem_cons, or_iff_right hb]
          rcases eq_or_ne k n with rfl | hk
          · rw [update_self]
            refine iff_of_false (fun heq => hb (Option.some.inj heq).symm) fun hold => ?_
            have := hn.arena b hold.1
            omega
          · rw [update_of_ne hk]
            exact hn.first k b
      · show update (construct P spaces n).arenaIndex block n b < n + 1
        rcases List.mem_cons.1 hb with rfl | hb
        · rw [update_self]
          exact Nat.lt_succ_self n
        · rw [update_of_ne (hne b hb)]
          exact hlt b hb
      · show update (construct P spaces n).freeCount block P.ELEMENTS_PER_BLOCK b = _
        rcases List.mem_cons.1 hb with rfl | hb
        · rw [update_self]
        · rw [update_of_ne (hne b hb)]
          exact hn.count b hb

omit [DecidableEq τ] in
theorem built_start (h : Start P s) : Built P s P.numberOfArenas := by
  obtain ⟨spaces, hfresh, rfl⟩ := h
  exact built_construct hfresh

theorem sound_start (h : Start P s) : Sound P s := by
  have hb := built_start h
  have hidle : ∀ t, s.pc t = .idle := fun t => by rw [hb.idle]
  refine ⟨⟨hb.aligned, hb.apart, ?_, ?_, ?_, fun t => ?_, fun t => ?_, ?_, fun k b hfirst => ?_,
    ?_, ?_, fun t b hpc => ?_⟩, ?_, fun t b => ?_, fun t c hc => ?_, fun a ha => ?_, ?_,
    fun t c hc => ?_, fun a ha => ?_, fun t => ?_⟩
  · rw [hb.total, hb.reserving]
    rfl
  · rw [hb.total]
    exact hb.le.trans (numberOfArenas_spec P).2
  · rw [hb.reserving]
    exact .nil
  · rw [hb.reserving, hidle]
    simp [Pc.Reserves]
  · rw [hidle]
    trivial
  · simp [hb.next]
  · exact ((hb.first k b).1 hfirst).1
  · simp [hb.hint]
  · simp [hb.last]
  · rw [hidle] at hpc
    cases hpc
  · rw [hb.sets]
    exact fun _ => .init ⟨rfl, rfl, rfl⟩
  · rw [hidle, hb.sets]
    rfl
  · rw [hidle] at hc
    cases hc
  · rw [hb.live] at ha
    cases ha
  · rw [hb.live]
    exact .nil
  · rw [hidle] at hc
    cases hc
  · rw [hb.live] at ha
    cases ha
  · rw [hidle]
    trivial

theorem reachable_sound (h : (machine (τ := τ) P).Reachable s) : Sound P s :=
  Machine.reachable_induction (fun _ => sound_start) (fun _ _ _ _ ih hs => ih.step hs) h

end Sound

end MinStd.BitblockResource

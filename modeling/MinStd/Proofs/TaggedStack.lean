import MinStd.TaggedStack
import Mathlib.Data.Nat.ModEq

/-!
# The intrusive stack is a stack

A thread writes only the links of nodes it has, so the links of the nodes on the stack stay and the
head leads through them (`Inv.move`).  A compare-and-swap of a pop that finds the word it read finds
a head that has not changed since, as the counter has not come round; so the node is still the top
and its link is the one that was read (`Inv.top`).  Each call takes effect at its successful
compare-and-swap, or where a pop reads a null head.
-/

namespace MinStd.TaggedStack

open Function

variable {τ ν L : Type*} {C : Codec ν} {A : Adapter C L} {s s' : State τ ν L} {t u : τ}
variable {x : Pc ν} {n : ν} {tag since : ℕ} {initial l : List ν}

/-! ### What the calls know -/

/-- A head word read when the head had changed `since` times. -/
structure Snapshot (C : Codec ν) (s : State τ ν L) (tag since : ℕ) : Prop where
  le : since ≤ s.changes
  counter : C.unpackCounter tag = since % C.counters
  head : since = s.changes → s.head = tag

def PcOk (A : Adapter C L) (s : State τ ν L) (t : τ) : Pc ν → Prop
  | .pushLoad node => s.place node = .owned t
  | .pushStore node _ => s.place node = .owned t
  | .pushCas node tag => s.place node = .owned t ∧ s.link node = A.toLink (C.unpackPtr tag)
  | .popLink current tag since => C.unpackPtr tag = some current ∧ Snapshot C s tag since
  | .popCas current tag nextTag since =>
    C.unpackPtr tag = some current ∧ Snapshot C s tag since ∧ (since = s.changes →
      nextTag = C.pack (s.next A current) (C.unpackCounter tag + 1))
  | .popClear current => s.place current = .owned t
  | .popRet out => ∀ n ∈ out, s.place n = .owned t
  | .stealRet out chain =>
    Linked some (s.next A) out chain none ∧ ∀ n ∈ chain, s.place n = .owned t
  | _ => True

def Pc.stage : Pc ν → Stage (Op ν) (Res ν)
  | .idle => .idle
  | .pushLoad node => .called (.push node)
  | .pushStore node _ => .called (.push node)
  | .pushCas node _ => .called (.push node)
  | .pushRet => .taken .pushed
  | .popLoad => .called .pop
  | .popLink _ _ _ => .called .pop
  | .popCas _ _ _ _ => .called .pop
  | .popClear current => .taken (.popped (some current))
  | .popRet out => .taken (.popped out)
  | .stealLoad => .called .stealAll
  | .stealCas _ => .called .stealAll
  | .stealRet _ chain => .taken (.stolen chain)

/-! ### What others leave -/

/-- What a step leaves to `u`: the nodes it has, with their links, and the head with the link of its
node, unless the head has changed. -/
structure Leaves (C : Codec ν) (u : τ) (s s' : State τ ν L) : Prop where
  place : ∀ n, s.place n = .owned u → s'.place n = .owned u
  link : ∀ n, s.place n = .owned u → s'.link n = s.link n
  le : s.changes ≤ s'.changes
  head : s'.changes = s.changes → s'.head = s.head
    ∧ ∀ n, C.unpackPtr s.head = some n → s'.link n = s.link n

theorem Leaves.same (hplace : s'.place = s.place) (hlink : s'.link = s.link)
    (hhead : s'.head = s.head) (hchanges : s'.changes = s.changes) : Leaves C u s s' :=
  ⟨fun _ hn => hplace ▸ hn, fun n _ => congrFun hlink n, hchanges.ge,
    fun _ => ⟨hhead, fun n _ => congrFun hlink n⟩⟩

theorem Snapshot.leaves (h : Snapshot C s tag since) (hl : Leaves C u s s') :
    Snapshot C s' tag since := by
  refine ⟨h.le.trans hl.le, h.counter, fun he => ?_⟩
  have h1 := h.le
  have h2 := hl.le
  rw [(hl.head (by omega)).1]
  exact h.head (by omega)

theorem PcOk.leaves (h : PcOk A s u x) (hl : Leaves C u s s') : PcOk A s' u x := by
  rcases x with _ | _ | _ | _ | _ | _ | _ | ⟨current, tag, nextTag, since⟩ | _ | out | _ | _ |
    ⟨out, chain⟩ <;> try trivial
  · exact hl.place _ h
  · exact hl.place _ h
  · obtain ⟨h1, h2⟩ := h
    refine ⟨hl.place _ h1, ?_⟩
    rw [hl.link _ h1]
    exact h2
  · exact ⟨h.1, h.2.leaves hl⟩
  · obtain ⟨h1, h2, h3⟩ := h
    refine ⟨h1, h2.leaves hl, fun he => ?_⟩
    have h4 := h2.le
    have h5 := hl.le
    have hsince : since = s.changes := by omega
    have hlink := (hl.head (by omega)).2 current (by rw [h2.head hsince]; exact h1)
    rw [h3 hsince]
    unfold State.next
    rw [hlink]
  · exact hl.place _ h
  · exact fun n hn => hl.place n (h n hn)
  · refine ⟨h.1.congr fun n hn => ?_, fun n hn => hl.place n (h.2 n hn)⟩
    unfold State.next
    rw [hl.link n (h.2 n hn)]

theorem storeLink_of_ne [DecidableEq ν] {node : ν} {link : L}
    (hnode : s.place node = .owned t)
    (hn : s.place n ≠ .owned t) : (s.storeLink node link).link n = s.link n :=
  update_of_ne (by rintro rfl; exact hn hnode) _ _

/-! ### The invariant -/

variable [DecidableEq τ]

/-- The head counts its changes and leads through the nodes on the stack. -/
structure Inv (A : Adapter C L) (initial : List ν) (s : State τ ν L) : Prop where
  counter : C.unpackCounter s.head = s.changes % C.counters
  chain : Linked some (s.next A) (C.unpackPtr s.head) s.contents none
  stack : ∀ n, n ∈ s.contents ↔ s.place n = .stack
  fits : ∀ n, s.place n ≠ .elsewhere → C.Fits (some n)
  pc : ∀ t, PcOk A s t (s.pc t)
  atomic : (lifo initial).Atomic s.history (Pc.stage ∘ s.pc) s.contents

theorem inv_start (h : Start A initial s) : Inv A initial s := by
  obtain ⟨rfl, hchain, hcounter, hstack, hfits, hpc, hhist⟩ := h
  refine ⟨hcounter, hchain, hstack, hfits, fun t => ?_, ?_⟩
  · rw [hpc]
    trivial
  · rw [hpc, hhist]
    exact .start

theorem Inv.top_place (h : Inv A initial s) (hn : C.unpackPtr s.head = some n) :
    s.place n = .stack := by
  have hchain := h.chain
  rw [hn] at hchain
  obtain ⟨l, hl, -⟩ := hchain.unlink_head (Option.some_injective _) (by simp)
  rw [← h.stack, hl]
  exact List.mem_cons_self

theorem Inv.fits_top (h : Inv A initial s) : C.Fits (C.unpackPtr s.head) := by
  cases hn : C.unpackPtr s.head with
  | none => exact C.fits_none
  | some n => exact h.fits n (by rw [h.top_place hn]; simp)

/-! ### Steps that leave the head -/

/-- Only `t` moves, and it writes only the links of nodes it has. -/
theorem Inv.move (h : Inv A initial s) {link : ν → L} {history : List (Event τ (Op ν) (Res ν))}
    (hlink : ∀ n, s.place n ≠ .owned t → link n = s.link n)
    (hx : PcOk A { s with link := link } t x)
    (ha : (lifo initial).Atomic history (update (Pc.stage ∘ s.pc) t x.stage) s.contents) :
    Inv A initial { s with link := link, pc := update s.pc t x, history := history } := by
  refine ⟨h.counter, h.chain.congr fun n hn => ?_, h.stack, h.fits, fun u => ?_, ?_⟩
  · have hne : s.place n ≠ .owned t := by
      rw [(h.stack n).1 hn]
      simp
    show A.toNode (link n) = A.toNode (s.link n)
    rw [hlink n hne]
  · show PcOk A _ u (update s.pc t x u)
    by_cases hu : u = t
    · subst hu
      rw [update_self]
      exact hx.leaves (.same rfl rfl rfl rfl)
    · rw [update_of_ne hu]
      refine (h.pc u).leaves ⟨fun _ hp => hp, fun n hp => hlink n ?_, le_rfl,
        fun _ => ⟨rfl, fun n hn => hlink n ?_⟩⟩
      · rw [hp]
        exact fun he => hu (Place.owned.inj he)
      · rw [h.top_place hn]
        simp
  · rw [comp_update]
    exact ha

/-- A step inside a call that does not take effect. -/
theorem Inv.goOn (h : Inv A initial s) {link : ν → L}
    (hlink : ∀ n, s.place n ≠ .owned t → link n = s.link n)
    (hx : PcOk A { s with link := link } t x) (hstage : x.stage = (s.pc t).stage) :
    Inv A initial { s with link := link, pc := update s.pc t x } := by
  refine h.move hlink hx ?_
  rw [update_eq_self_iff.2 hstage]
  exact h.atomic

theorem Inv.setPc (h : Inv A initial s) (hx : PcOk A s t x) (hstage : x.stage = (s.pc t).stage) :
    Inv A initial (s.setPc t x) := h.goOn (fun _ _ => rfl) hx hstage

theorem Inv.call (h : Inv A initial s) {op : Op ν} (hidle : s.pc t = .idle) (hx : PcOk A s t x)
    (hstage : x.stage = .called op) : Inv A initial (s.call t op x) := by
  refine h.move (fun _ _ => rfl) hx ?_
  rw [hstage]
  exact h.atomic.call op (by rw [comp_apply, hidle]; rfl)

theorem Inv.ret (h : Inv A initial s) {res : Res ν} (hpc : (s.pc t).stage = .taken res) :
    Inv A initial (s.ret t res) := h.move (fun _ _ => rfl) trivial (h.atomic.ret hpc)

/-- A pop's look at the head: it goes on to the top node, or takes effect on the empty stack. -/
theorem Inv.look (h : Inv A initial s) (hpc : (s.pc t).stage = .called .pop) :
    Inv A initial (s.setPc t (popLoop C s.head s.changes)) := by
  unfold popLoop
  cases hn : C.unpackPtr s.head with
  | some n => exact h.setPc ⟨hn, le_rfl, h.counter, fun _ => rfl⟩ hpc.symm
  | none =>
    refine h.move (fun _ _ => rfl) (fun _ hm => nomatch hm) ?_
    have hempty : s.contents = [] := by
      have hchain := h.chain
      rw [hn] at hchain
      cases hc : s.contents with
      | nil => rfl
      | cons a l =>
        rw [hc] at hchain
        exact nomatch hchain.1
    have ha := h.atomic
    rw [hempty] at ha ⊢
    exact ha.take hpc .empty

/-! ### Steps that change the head -/

/-- The new head counts one change more and leads through what is on the stack now. -/
theorem Inv.swap (h : Inv A initial s) {head : ℕ} {place : ν → Place τ}
    (hcounter : C.unpackCounter head = (C.unpackCounter s.head + 1) % C.counters)
    (hchain : Linked some (s.next A) (C.unpackPtr head) l none)
    (hstack : ∀ n, n ∈ l ↔ place n = .stack)
    (helse : ∀ n, place n ≠ .elsewhere → s.place n ≠ .elsewhere)
    (hown : ∀ u, u ≠ t → ∀ n, s.place n = .owned u → place n = .owned u)
    (hx : PcOk A (s.swap head l place) t x)
    (ha : (lifo initial).Atomic s.history (update (Pc.stage ∘ s.pc) t x.stage) l) :
    Inv A initial ((s.swap head l place).setPc t x) := by
  refine ⟨?_, hchain, hstack, fun n hn => h.fits n (helse n hn), fun u => ?_, ?_⟩
  · show C.unpackCounter head = (s.changes + 1) % C.counters
    rw [hcounter, h.counter, Nat.mod_add_mod]
  · show PcOk A _ u (update s.pc t x u)
    by_cases hu : u = t
    · subst hu
      rw [update_self]
      exact hx.leaves (.same rfl rfl rfl rfl)
    · rw [update_of_ne hu]
      refine (h.pc u).leaves ⟨hown u hu, fun _ _ => rfl, Nat.le_succ _, fun he => ?_⟩
      have hne : s.changes + 1 = s.changes := he
      omega
  · show (lifo initial).Atomic s.history (Pc.stage ∘ update s.pc t x) l
    rw [comp_update]
    exact ha

/-- A pop whose compare-and-swap finds the word it read is about to take the top. -/
theorem Inv.top (h : Inv A initial s) {nextTag : ℕ} (hpc : s.pc t = .popCas n s.head nextTag since)
    (hlt : s.changes < since + C.counters) : ∃ l, s.contents = n :: l
      ∧ Linked some (s.next A) (s.next A n) l none ∧ C.Fits (s.next A n)
      ∧ nextTag = C.pack (s.next A n) (C.unpackCounter s.head + 1) := by
  have hok : PcOk A s t (.popCas n s.head nextTag since) := by
    have := h.pc t
    rwa [hpc] at this
  obtain ⟨hn, hsnap, hnext⟩ := hok
  have hsince : since = s.changes := by
    have h1 := hsnap.le
    have h2 := hsnap.counter.symm.trans h.counter
    have h3 : C.counters ∣ s.changes - since := (Nat.modEq_iff_dvd' h1).1 h2
    have h4 := Nat.eq_zero_of_dvd_of_lt h3 (by omega)
    omega
  have hchain := h.chain
  rw [hn] at hchain
  obtain ⟨l, hl, hrest⟩ := hchain.unlink_head (Option.some_injective _) (by simp)
  refine ⟨l, hl, hrest, ?_, hnext hsince⟩
  cases l with
  | nil =>
    rw [Linked.nil_iff.1 hrest]
    exact C.fits_none
  | cons m l =>
    rw [hrest.1]
    refine h.fits m ?_
    rw [(h.stack m).1 (by rw [hl]; simp)]
    simp

/-! ### What the invariant says of the stack -/

/-- The calls and returns so far are a history of a stack used atomically, which holds `contents`
now; the head leads through these nodes, none of them twice, and they are the nodes no thread has.
A pop about to succeed takes the top, and a popped node is the popper's; a steal has the chain it
took to itself. -/
structure Correct (A : Adapter C L) (initial : List ν) (s : State τ ν L) : Prop where
  linearizable : ∃ p, (lifo initial).Atomic s.history p s.contents
  chain : Linked some (s.next A) (C.unpackPtr s.head) s.contents none
  nodup : s.contents.Nodup
  stack : ∀ n, n ∈ s.contents ↔ s.place n = .stack
  top : ∀ t n nextTag since, s.pc t = .popCas n s.head nextTag since →
    s.changes < since + C.counters →
    ∃ l, s.contents = n :: l ∧ C.unpackPtr nextTag = l.head?
  popped : ∀ t n, s.pc t = .popClear n ∨ s.pc t = .popRet (some n) → s.place n = .owned t
  stolen : ∀ t out chain, s.pc t = .stealRet out chain →
    Linked some (s.next A) out chain none ∧ ∀ n ∈ chain, s.place n = .owned t

theorem Inv.correct (h : Inv A initial s) : Correct A initial s := by
  refine ⟨⟨_, h.atomic⟩, h.chain, h.chain.nodup (Option.some_injective _) (by simp), h.stack,
    fun t n nextTag since hpc hlt => ?_, fun t n hpc => ?_, fun t out chain hpc => ?_⟩
  · obtain ⟨l, hl, hrest, hfits, rfl⟩ := h.top hpc hlt
    refine ⟨l, hl, ?_⟩
    rw [C.unpackPtr_pack hfits]
    cases l with
    | nil => exact hrest
    | cons m l => exact hrest.1
  · have hok := h.pc t
    rcases hpc with hpc | hpc
    · rwa [hpc] at hok
    · rw [hpc] at hok
      exact hok n rfl
  · have hok := h.pc t
    rwa [hpc] at hok

/-! ### The compare-and-swaps -/

variable [DecidableEq ν]

theorem Inv.pushSwap (h : Inv A initial s) (hpc : s.pc t = .pushCas n s.head) :
    Inv A initial ((s.swap (C.pack (some n) (C.unpackCounter s.head + 1)) (n :: s.contents)
      (update s.place n .stack)).setPc t .pushRet) := by
  have hok : s.place n = .owned t ∧ s.link n = A.toLink (C.unpackPtr s.head) := by
    have := h.pc t
    rwa [hpc] at this
  have hfits : C.Fits (some n) := h.fits n (by rw [hok.1]; simp)
  have hnext : s.next A n = C.unpackPtr s.head := by
    unfold State.next
    rw [hok.2, A.toNode_toLink h.fits_top]
  refine h.swap (C.unpackCounter_pack hfits) ?_ (fun m => ?_) (fun m hm => ?_) (fun u hu m hm => ?_)
    trivial ?_
  · rw [C.unpackPtr_pack hfits]
    exact h.chain.push hnext
  · rw [List.mem_cons, h.stack]
    by_cases he : m = n
    · subst he
      simp
    · rw [update_of_ne he]
      simp [he]
  · by_cases he : m = n
    · subst he
      rw [hok.1]
      simp
    · rwa [update_of_ne he] at hm
  · have he : m ≠ n := by
      rintro rfl
      exact hu (Place.owned.inj (hm.symm.trans hok.1))
    rw [update_of_ne he]
    exact hm
  · exact h.atomic.take (by rw [comp_apply, hpc]; rfl) .push

theorem Inv.popSwap (h : Inv A initial s) {nextTag : ℕ}
    (hpc : s.pc t = .popCas n s.head nextTag since) (hlt : s.changes < since + C.counters) :
    Inv A initial ((s.swap nextTag s.contents.tail (update s.place n (.owned t))).setPc t
      (.popClear n)) := by
  obtain ⟨l, hl, hrest, hfits, rfl⟩ := h.top hpc hlt
  have hchain := h.chain
  have hnd : n ∉ l := by
    have := hchain.nodup (Option.some_injective _) (by simp)
    rw [hl] at this
    exact (List.nodup_cons.1 this).1
  have hn : s.place n = .stack := (h.stack n).1 (by rw [hl]; exact List.mem_cons_self)
  rw [hl, List.tail_cons]
  refine h.swap (C.unpackCounter_pack hfits) ?_ (fun m => ?_) (fun m hm => ?_) (fun u hu m hm => ?_)
    (update_self n _ _) ?_
  · rw [C.unpackPtr_pack hfits]
    exact hrest
  · by_cases he : m = n
    · subst he
      simp [hnd]
    · rw [update_of_ne he, ← h.stack, hl]
      simp [he]
  · by_cases he : m = n
    · subst he
      rw [hn]
      simp
    · rwa [update_of_ne he] at hm
  · have he : m ≠ n := by
      rintro rfl
      rw [hn] at hm
      exact nomatch hm
    rw [update_of_ne he]
    exact hm
  · have ha := h.atomic
    rw [hl] at ha
    exact ha.take (by rw [comp_apply, hpc]; rfl) .pop

theorem Inv.stealSwap (h : Inv A initial s) (hpc : s.pc t = .stealCas s.head) :
    Inv A initial ((s.swap (C.pack none (C.unpackCounter s.head + 1)) []
      (fun n => if n ∈ s.contents then .owned t else s.place n)).setPc t
      (.stealRet (C.unpackPtr s.head) s.contents)) := by
  refine h.swap (C.unpackCounter_pack C.fits_none) ?_ (fun m => ?_) (fun m hm => ?_)
    (fun u hu m hm => ?_) ⟨h.chain, fun m hm => if_pos hm⟩ ?_
  · rw [C.unpackPtr_pack C.fits_none]
    rfl
  · split_ifs with hm
    · simp
    · rw [h.stack] at hm
      simp [hm]
  · split_ifs at hm with hc
    · rw [(h.stack m).1 hc]
      simp
    · exact hm
  · rw [if_neg ?_]
    · exact hm
    · rw [h.stack, hm]
      simp
  · exact h.atomic.take (by rw [comp_apply, hpc]; rfl) .steal

/-! ### Steps outside the calls -/

/-- A thread in no call writes a link or gives a node away. -/
theorem Inv.store (h : Inv A initial s) {node : ν} {link : L} (hidle : s.pc t = .idle)
    (hnode : s.place node = .owned t) : Inv A initial (s.storeLink node link) := by
  have hlink : ∀ n, s.place n ≠ .owned t → (s.storeLink node link).link n = s.link n :=
    fun _ => storeLink_of_ne hnode
  have := h.goOn (t := t) (x := .idle) hlink trivial (by rw [hidle])
  rwa [update_eq_self_iff.2 hidle.symm] at this

theorem Inv.give (h : Inv A initial s) {node : ν} (hidle : s.pc t = .idle)
    (hnode : s.place node = .owned t) :
    Inv A initial { s with place := update s.place node (.owned u) } := by
  refine ⟨h.counter, h.chain, fun n => ?_, fun n hn => ?_, fun v => ?_, h.atomic⟩
  · show n ∈ s.contents ↔ update s.place node (.owned u) n = .stack
    rw [h.stack]
    by_cases he : n = node
    · subst he
      simp [hnode]
    · rw [update_of_ne he]
  · replace hn : update s.place node (.owned u) n ≠ .elsewhere := hn
    by_cases he : n = node
    · subst he
      exact h.fits n (by rw [hnode]; simp)
    · rw [update_of_ne he] at hn
      exact h.fits n hn
  · by_cases hv : v = t
    · subst hv
      show PcOk A _ v (s.pc v)
      rw [hidle]
      trivial
    · refine (h.pc v).leaves ⟨fun n hn => ?_, fun _ _ => rfl, le_rfl,
        fun _ => ⟨rfl, fun _ _ => rfl⟩⟩
      have hne : n ≠ node := by
        rintro rfl
        rw [hnode] at hn
        exact hv (Place.owned.inj hn).symm
      show update s.place node (.owned u) n = _
      rw [update_of_ne hne]
      exact hn

/-! ### The result -/

theorem Inv.run {spurious : Bool} (h : Inv A initial s)
    (hg : Unwrapped C s (.run t spurious)) (hs : run A s t spurious = some s') :
    Inv A initial s' := by
  have hok := h.pc t
  unfold TaggedStack.run at hs
  rcases hpc : s.pc t with _ | n | ⟨n, tag⟩ | ⟨n, tag⟩ | _ | _ | ⟨n, tag, since⟩ |
    ⟨n, tag, nextTag, since⟩ | n | out | _ | stolen | ⟨out, chain⟩ <;>
    simp only [hpc, reduceCtorEq, Option.some.injEq] at hs <;> rw [hpc] at hok
  · subst hs
    exact h.setPc hok (by rw [hpc]; rfl)
  · subst hs
    refine h.goOn (fun _ => storeLink_of_ne hok) ⟨hok, update_self n _ _⟩ (by rw [hpc]; rfl)
  · split_ifs at hs with hhead
    · obtain rfl := Option.some.inj hs
      subst hhead
      exact h.pushSwap hpc
    · obtain rfl := Option.some.inj hs
      exact h.setPc hok.1 (by rw [hpc]; rfl)
  · subst hs
    exact h.ret (by rw [hpc]; rfl)
  · subst hs
    exact h.look (by rw [hpc]; rfl)
  · subst hs
    exact h.setPc ⟨hok.1, hok.2, fun _ => rfl⟩ (by rw [hpc]; rfl)
  · split_ifs at hs with hhead
    · obtain rfl := Option.some.inj hs
      subst hhead
      exact h.popSwap hpc (hg since (by rw [hpc]; rfl))
    · obtain rfl := Option.some.inj hs
      exact h.look (by rw [hpc]; rfl)
  · subst hs
    refine h.goOn (fun _ => storeLink_of_ne hok) (fun m hm => ?_) (by rw [hpc]; rfl)
    obtain rfl := Option.some.inj hm
    exact hok
  · subst hs
    exact h.ret (by rw [hpc]; rfl)
  · subst hs
    exact h.setPc trivial (by rw [hpc]; rfl)
  · split_ifs at hs with hhead
    · obtain rfl := Option.some.inj hs
      obtain ⟨rfl, -⟩ := hhead
      exact h.stealSwap hpc
    · obtain rfl := Option.some.inj hs
      exact h.setPc trivial (by rw [hpc]; rfl)
  · subst hs
    exact h.ret (by rw [hpc]; rfl)

theorem Inv.step {a : Action τ ν L} (h : Inv A initial s) (hg : Unwrapped C s a)
    (hs : step A s a = some s') : Inv A initial s' := by
  rcases a with ⟨t, n⟩ | t | t | ⟨t, n, link⟩ | ⟨t, u, n⟩ | ⟨t, spurious⟩
  · simp only [TaggedStack.step] at hs
    split_ifs at hs with hc
    obtain rfl := Option.some.inj hs
    exact h.call hc.1 hc.2 rfl
  · simp only [TaggedStack.step] at hs
    split_ifs at hs with hidle
    obtain rfl := Option.some.inj hs
    exact h.call hidle trivial rfl
  · simp only [TaggedStack.step] at hs
    split_ifs at hs with hidle
    obtain rfl := Option.some.inj hs
    exact h.call hidle trivial rfl
  · simp only [TaggedStack.step] at hs
    split_ifs at hs with hc
    obtain rfl := Option.some.inj hs
    exact h.store hc.1 hc.2
  · simp only [TaggedStack.step] at hs
    split_ifs at hs with hc
    obtain rfl := Option.some.inj hs
    exact h.give hc.1 hc.2
  · exact h.run hg hs

theorem inv_of_run (h : (machine A initial).Run (Unwrapped C) s) : Inv A initial s :=
  Machine.run_induction (fun _ => inv_start) (fun _ _ _ _ ih hg hs => ih.step hg hs) h

theorem correct_of_run (h : (machine A initial).Run (Unwrapped C) s) : Correct A initial s :=
  (inv_of_run h).correct

/-- Nodes 0 and 1 are with thread 0. -/
def twoNodes : State (Fin 2) ℕ ℕ :=
  ⟨0, fun _ => 0, fun _ => .idle, fun n => if n < 2 then .owned ⟨0, Nat.two_pos⟩ else .elsewhere, [], 0, []⟩

/-- A link is the number of the node plus one, or zero. -/
def numbers : Adapter (arenaCodec ⟨2⟩ (by decide)) ℕ where
  toLink := fun ptr => ptr.elim 0 (· + 1)
  toNode := fun link => if link = 0 then none else some (link - 1)
  toNode_toLink := fun {ptr} _ => by cases ptr <;> rfl

/-- The node a pop has read the link of is popped, rewritten and pushed again meanwhile: the pop
fails, and takes the node at its second try. -/
theorem correct_of_run_again : ∃ s : State (Fin 2) ℕ ℕ,
    (machine numbers []).Run (Unwrapped (arenaCodec ⟨2⟩ (by decide))) s
      ∧ s.pc 1 = .popRet (some 1) ∧ Correct numbers [] s := by
  have hstart : Start numbers [] twoNodes := by
    refine ⟨rfl, rfl, by decide, fun n => ?_, fun n hn => ⟨by decide, fun i hi => ?_⟩, rfl,
      rfl⟩
    · unfold twoNodes
      by_cases hn : n < 2 <;> simp [hn]
    · obtain rfl := Option.some.inj hi
      unfold twoNodes at hn
      by_contra hlt
      exact hn (if_neg hlt)
  have hrun : ∃ s, (machine numbers []).Run (Unwrapped (arenaCodec ⟨2⟩ (by decide))) s
      ∧ s.pc (1 : Fin 2) = .popRet (some 1) :=
    Machine.exists_run (s := twoNodes)
      (List.flatten [[.push 0 0], List.replicate 4 (.run 0 false),
        [.push 0 1], List.replicate 4 (.run 0 false), [.pop 1], List.replicate 2 (.run 1 false),
        [.pop 0], List.replicate 5 (.run 0 false),
        [.store 0 1 7, .push 0 1], List.replicate 4 (.run 0 false),
        List.replicate 4 (.run 1 false)]) hstart (by decide)
  obtain ⟨s, hs, hpop⟩ := hrun
  exact ⟨s, hs, hpop, correct_of_run hs⟩

end MinStd.TaggedStack

import MinStd.FormatOutput
import MinStd.Proofs.CharConv
import Mathlib.Data.List.TakeWhile

/-!
# What the format driver writes

Each turn of the driver's loop writes what the next segments of the format string ask for, up to one
placeholder (`buildLoop_eq`), so it writes the text of the segmentation, but for the numbers of the
placeholders without an id, which it casts to 32 bits.
-/

namespace MinStd.FormatOutput

open CharConv

variable {args : List FmtArg} {fmt body cs : List Char} {c : Char} {buffer b : StringBuffer}
  {place : ℕ → ℕ} {index position : ℕ}

/-! ### Literal text -/

/-- A literal run with `}}` for each `}`. -/
def literalText : List Char → List Char
  | [] => []
  | [c] => [c]
  | c :: d :: cs =>
    if c = '}' ∧ d = '}' then c :: literalText cs else c :: literalText (d :: cs)

theorem appends_literal : ∀ (cs : List Char) (buffer : StringBuffer), (∀ c ∈ cs, c ≠ '\x00') →
    buffer.chars.length + (literalText cs).length ≤ buffer.max_size →
    buffer.Appends (literalText cs) (literal buffer cs)
  | [], buffer, _, _ => .refl buffer
  | [c], buffer, hc, hroom => StringBuffer.appends_pushBack (hc c List.mem_cons_self) hroom
  | c :: d :: cs, buffer, hc, hroom => by
    have htail : ∀ e ∈ d :: cs, e ≠ '\x00' := fun e he => hc e (List.mem_cons_of_mem _ he)
    unfold literalText at hroom ⊢
    unfold literal
    split_ifs at hroom ⊢ <;> rw [List.length_cons] at hroom
    · have hpush := StringBuffer.appends_pushBack (hc c List.mem_cons_self) (b := buffer) (by omega)
      exact hpush.trans (appends_literal cs _ (fun e he => htail e (List.mem_cons_of_mem _ he))
        (hpush.room (by rw [List.length_singleton]; omega)))
    · have hpush := StringBuffer.appends_pushBack (hc c List.mem_cons_self) (b := buffer) (by omega)
      exact hpush.trans (appends_literal (d :: cs) _ htail
        (hpush.room (by rw [List.length_singleton]; omega)))

/-- A run without an opening brace is literal text. -/
theorem segments_literal : ∀ (run rest : List Char), '{' ∉ run →
    (rest = [] ∨ rest.head? = some '{') →
    segments (run ++ rest) = (literalText run).map .text ++ segments rest
  | [], rest, _, _ => rfl
  | [c], rest, hrun, hrest => by
    have hc : c ≠ '{' := fun h => hrun (h ▸ List.mem_cons_self)
    have hclose : ¬ (c = '}' ∧ rest.head? = some '}') := by
      rintro ⟨-, h⟩
      rcases hrest with rfl | hrest
      · cases h
      · rw [hrest] at h
        cases h
    rw [List.singleton_append, segments, if_neg hc, if_neg hclose]
    rfl
  | c :: d :: run, rest, hrun, hrest => by
    have hc : c ≠ '{' := fun h => hrun (h ▸ List.mem_cons_self)
    have hd : '{' ∉ d :: run := fun h => hrun (List.mem_cons_of_mem _ h)
    rw [List.cons_append, segments, if_neg hc, List.cons_append, List.head?_cons, List.tail_cons]
    unfold literalText
    by_cases h : c = '}' ∧ d = '}'
    · obtain ⟨rfl, rfl⟩ := h
      rw [if_pos ⟨rfl, rfl⟩, if_pos ⟨rfl, rfl⟩, segments_literal run rest
        (fun h => hd (List.mem_cons_of_mem _ h)) hrest]
      rfl
    · rw [if_neg (by simpa using h), if_neg h, ← List.cons_append,
        segments_literal (d :: run) rest hd hrest]
      rfl

theorem render_text (s : List Char) (segs : List Segment) :
    render args place index (s.map .text ++ segs) = s ++ render args place index segs := by
  induction s with
  | nil => rfl
  | cons c s ih => rw [List.map_cons, List.cons_append, render, ih, List.cons_append]

/-! ### Ids -/

theorem digit?_ten (c : Char) :
    digit? 10 c = if isDigit c then some (c.toNat - '0'.toNat) else none := by
  rw [← digitValue_eq (by decide)]
  unfold digitValue isDigit
  simp only [decide_eq_true_eq]
  split_ifs with h1 h2 h3
  · obtain ⟨-, h⟩ := h1
    rw [Char.le_def, UInt32.le_iff_toNat_le] at h
    change c.toNat ≤ 57 at h
    rw [Option.filter_some, if_pos]
    rw [decide_eq_true_eq]
    change c.toNat - 48 < 10
    omega
  · rw [Option.filter_some, if_neg]
    rw [decide_eq_true_eq]
    omega
  · rw [Option.filter_some, if_neg]
    rw [decide_eq_true_eq]
    omega
  · rfl

theorem take_idxOf (c : Char) (cs : List Char) :
    cs.take (cs.idxOf c) = cs.takeWhile (· ≠ c) := by
  induction cs with
  | nil => rfl
  | cons d cs ih =>
    rw [List.idxOf_cons, List.takeWhile_cons]
    by_cases h : d = c
    · simp [h]
    · rw [beq_eq_false_iff_ne.2 h, decide_eq_true h, if_pos rfl, cond_false,
        List.take_succ_cons, ih]

theorem max_id_eq : MAX_ID = 4294967289 := by decide

/-- The loop reads a number up to the largest id. -/
theorem parseIdLoop_eq (cs : List Char) (hpos : position ≤ MAX_ID) :
    parseIdLoop cs position
      = if digitRun 10 cs = cs ∧ position * 10 ^ cs.length + valueOf 10 cs ≤ MAX_ID then
          (true, some (position * 10 ^ cs.length + valueOf 10 cs))
        else (false, none) := by
  rw [max_id_eq] at *
  induction cs generalizing position with
  | nil => simp [parseIdLoop, digitRun, valueOf, hpos]
  | cons c cs ih =>
    have hdigit := digit?_ten c
    rw [parseIdLoop]
    by_cases hc : isDigit c = true
    · rw [if_pos hc] at hdigit
      have hd := digit?_lt hdigit
      have hrun : digitRun 10 (c :: cs) = c :: cs ↔ digitRun 10 cs = cs := by
        rw [digitRun_cons_of_some hdigit]
        simp
      rw [if_neg (by simpa using hc)]
      simp only [hrun]
      by_cases hbig : (UINT32_MAX - 9) / 10 < position
      · rw [if_pos hbig, if_neg]
        rintro ⟨-, hle⟩
        have hpow : 10 ≤ 10 ^ (c :: cs).length :=
          Nat.le_self_pow (List.length_pos_iff.2 (List.cons_ne_nil c cs)).ne' 10
        have := Nat.mul_le_mul_left position hpow
        have hmax : (UINT32_MAX - 9) / 10 = 429496728 := by decide
        omega
      · have hmax : (UINT32_MAX - 9) / 10 = 429496728 := by decide
        rw [if_neg hbig, Nat.mod_eq_of_lt (by omega), ih (by omega)]
        by_cases hall : digitRun 10 cs = cs
        · have hval : position * 10 ^ (c :: cs).length + valueOf 10 (c :: cs)
              = (position * 10 + (c.toNat - '0'.toNat)) * 10 ^ cs.length + valueOf 10 cs := by
            have hcons : valueOf 10 (c :: digitRun 10 cs) = _ := valueOf_cons hdigit
            rw [hall] at hcons
            rw [hcons, List.length_cons, pow_succ]
            ring
          rw [hval]
        · simp only [hall, false_and, if_false]
    · rw [if_neg hc] at hdigit
      rw [if_pos (by simpa using hc), if_neg]
      rw [digitRun_cons_of_none hdigit]
      exact fun h => List.cons_ne_nil c cs h.1.symm

theorem parseArgId_eq (body : List Char) : parseArgId body
    = match argId body with
      | .automatic => (true, none)
      | .explicit position => (true, some position)
      | .invalid => (false, none) := by
  have htake := take_idxOf ':' body
  unfold parseArgId argId
  rw [htake]
  by_cases hnil : body = []
  · subst hnil
    rfl
  · rw [if_neg hnil]
    by_cases hidx : body.idxOf ':' = 0
    · rw [hidx, List.take_zero] at htake
      rw [if_pos hidx, ← htake]
      rfl
    · have hid : body.takeWhile (· ≠ ':') ≠ [] := by
        rw [← htake]
        intro h
        rcases List.take_eq_nil_iff.1 h with h | h
        · exact hidx h
        · exact hnil h
      rw [if_neg hidx, parseIdLoop_eq _ (Nat.zero_le _)]
      simp only [hid, if_false, Nat.zero_mul, Nat.zero_add]
      split_ifs <;> rfl

/-! ### The loop -/

theorem take_takeWhile (p : Char → Bool) (cs : List Char) :
    cs.take (cs.takeWhile p).length = cs.takeWhile p :=
  (List.prefix_iff_eq_take.1 (List.takeWhile_prefix p)).symm

theorem drop_takeWhile (p : Char → Bool) (cs : List Char) :
    cs.drop (cs.takeWhile p).length = cs.dropWhile p := by
  have h : (cs.takeWhile p ++ cs.dropWhile p).drop (cs.takeWhile p).length = cs.dropWhile p :=
    List.drop_left
  rwa [List.takeWhile_append_dropWhile] at h

theorem mem_iff_length_takeWhile (c : Char) (cs : List Char) :
    c ∈ cs ↔ (cs.takeWhile (· ≠ c)).length < cs.length := by
  rw [← take_idxOf, List.length_take, ← List.idxOf_lt_length_iff]
  omega

/-- The segments at an opening brace. -/
theorem segments_brace (cs : List Char) : segments ('{' :: cs)
    = if cs.head? = some '{' then .text '{' :: segments cs.tail
      else if '}' ∈ cs then
        .placeholder (cs.takeWhile (· ≠ '}')) :: segments (cs.dropWhile (· ≠ '}')).tail
      else [] := by
  rw [segments, if_pos rfl]

theorem appends_insertArgument (position : ℕ) (body : List Char)
    (hroom : buffer.chars.length + (argText args position body).length ≤ buffer.max_size) :
    buffer.Appends (argText args position body) (insertArgument args buffer position body) := by
  unfold argText at hroom ⊢
  unfold insertArgument
  cases h : args[position]? with
  | none =>
    rw [h] at hroom
    exact StringBuffer.appends_append hroom
  | some arg =>
    rw [h] at hroom
    exact arg.appends buffer body hroom

theorem appends_invalid (body : List Char) (hroom : buffer.chars.length
      + ("\x7bInvalid format string: '".toList ++ body ++ "'\x7d".toList).length
        ≤ buffer.max_size) :
    buffer.Appends ("\x7bInvalid format string: '".toList ++ body ++ "'\x7d".toList)
      (invalid buffer body) := by
  rw [List.length_append, List.length_append] at hroom
  have h1 := StringBuffer.appends_append (b := buffer) (s := "\x7bInvalid format string: '".toList)
    (by omega)
  have h2 := StringBuffer.appends_append (s := body) (h1.room (by omega))
  have h3 := StringBuffer.appends_append (s := "'\x7d".toList)
    ((h1.trans h2).room (by rw [List.length_append]; omega))
  exact (h1.trans h2).trans h3

/-- What the code writes: the numbers of placeholders without an id are cast to 32 bits. -/
def written (args : List FmtArg) (index : ℕ) (segs : List Segment) : List Char :=
  render args (· % 2 ^ 32) index segs

/-- `next` writes, from `fmt[i]`, what is left to write. -/
def Writes (fmt : List Char) (args : List FmtArg)
    (next : ℕ → ℕ → StringBuffer → Option StringBuffer) (i index k : ℕ) (buffer : StringBuffer) :
    Prop :=
  buffer.chars.length + (written args k (segments (fmt.drop i))).length ≤ buffer.max_size →
    ∃ b, next i index buffer = some b
      ∧ buffer.Appends (written args k (segments (fmt.drop i))) b

theorem appends_next {next : ℕ → ℕ → StringBuffer → Option StringBuffer} {i index k : ℕ}
    {b : StringBuffer} {s : List Char} (hb : buffer.Appends s b)
    (hnext : Writes fmt args next i index k b)
    (hroom : buffer.chars.length + (s ++ written args k (segments (fmt.drop i))).length
      ≤ buffer.max_size) :
    ∃ b', next i index b = some b'
      ∧ buffer.Appends (s ++ written args k (segments (fmt.drop i))) b' := by
  rw [List.length_append] at hroom
  obtain ⟨b', hb', happend⟩ := hnext (hb.room (by omega))
  exact ⟨b', hb', hb.trans happend⟩

/-- A turn from after an opening brace. -/
theorem writes_afterBrace {next : ℕ → ℕ → StringBuffer → Option StringBuffer} {i index k : ℕ}
    (hi : i ≤ fmt.length) (hindex : index % 2 ^ 32 = k % 2 ^ 32)
    (hshort : Short (segments ('{' :: fmt.drop i)))
    (hnext : ∀ j index k buffer, i < j → j ≤ fmt.length → index % 2 ^ 32 = k % 2 ^ 32 →
      Short (segments (fmt.drop j)) → Writes fmt args next j index k buffer)
    (hroom : buffer.chars.length + (written args k (segments ('{' :: fmt.drop i))).length
      ≤ buffer.max_size) :
    ∃ b, afterBrace fmt args next i index buffer = some b
      ∧ buffer.Appends (written args k (segments ('{' :: fmt.drop i))) b := by
  have hlen : (fmt.drop i).length = fmt.length - i := List.length_drop
  rw [segments_brace] at hshort hroom ⊢
  unfold afterBrace
  rw [← List.head?_drop]
  by_cases hopen : (fmt.drop i).head? = some '{'
  · -- an escaped brace
    have hlt : i < fmt.length := by
      by_contra hge
      rw [List.drop_eq_nil_of_le (by omega)] at hopen
      cases hopen
    rw [if_pos hopen] at hshort hroom ⊢
    rw [if_pos ⟨hlt, hopen⟩]
    rw [List.tail_drop] at hshort hroom ⊢
    have hpush : buffer.Appends ['{'] (buffer.pushBack '{') :=
      StringBuffer.appends_pushBack (by decide) (by
        rw [written, render, List.length_cons] at hroom
        omega)
    exact appends_next hpush (hnext _ _ _ _ (by omega) (by omega) hindex
      fun body hb => hshort body (List.mem_cons_of_mem _ hb)) hroom
  · rw [if_neg hopen] at hshort hroom ⊢
    rw [if_neg fun h => hopen h.2]
    by_cases hend : fmt.length ≤ i
    · -- nothing after the brace
      rw [if_pos hend, List.drop_eq_nil_of_le hend]
      exact ⟨buffer, rfl, .refl buffer⟩
    · rw [if_neg hend, strcspn, if_pos hi, Option.bind_some]
      have hmem := mem_iff_length_takeWhile '}' (fmt.drop i)
      by_cases hclose : '}' ∈ fmt.drop i
      · -- a placeholder
        have hnot := hmem.1 hclose
        rw [if_pos hclose] at hshort hroom ⊢
        have hbody := hshort _ List.mem_cons_self
        have hrest : ((fmt.drop i).dropWhile (· ≠ '}')).tail
            = fmt.drop (i + ((fmt.drop i).takeWhile (· ≠ '}')).length + 1) := by
          rw [← drop_takeWhile, List.drop_drop, List.tail_drop]
        rw [if_neg (by omega), take_takeWhile, List.take_of_length_le hbody]
        rw [hrest] at hshort hroom ⊢
        replace hshort : Short (segments (fmt.drop _)) :=
          fun body hb => hshort body (List.mem_cons_of_mem _ hb)
        generalize (fmt.drop i).takeWhile (· ≠ '}') = body at *
        have go : ∀ index k buffer, index % 2 ^ 32 = k % 2 ^ 32 →
            Writes fmt args next (i + body.length + 1) index k buffer :=
          fun index k buffer hindex => hnext _ _ _ _ (by omega) (by omega) hindex hshort
        dsimp only
        rw [parseArgId_eq]
        unfold written at hroom ⊢
        rw [render] at hroom ⊢
        cases hid : argId body with
        | automatic =>
          rw [hid] at hroom
          dsimp only at hroom ⊢
          rw [hindex]
          refine appends_next (appends_insertArgument (k % 2 ^ 32) body ?_)
            (go _ (k + 1) _ (by omega)) hroom
          rw [List.length_append] at hroom
          omega
        | explicit position =>
          rw [hid] at hroom
          dsimp only at hroom ⊢
          refine appends_next (appends_insertArgument position body ?_) (go _ k _ hindex) hroom
          rw [List.length_append] at hroom
          omega
        | invalid =>
          rw [hid] at hroom
          dsimp only at hroom ⊢
          refine appends_next (appends_invalid body ?_) (go _ k _ hindex) hroom
          rw [List.length_append] at hroom
          omega
      · -- the brace is not closed
        rw [if_neg hclose]
        rw [hmem] at hclose
        rw [if_pos (by omega)]
        exact ⟨buffer, rfl, .refl buffer⟩

theorem writes_buildLoop (hnull : '\x00' ∉ fmt) : ∀ (fuel i index k : ℕ) (buffer : StringBuffer),
    i ≤ fmt.length → fmt.length < fuel + i → index % 2 ^ 32 = k % 2 ^ 32 →
    Short (segments (fmt.drop i)) →
    Writes fmt args (buildLoop fmt args fuel) i index k buffer := by
  intro fuel
  induction fuel with
  | zero =>
    intro i index k buffer hi hfuel
    omega
  | succ fuel ih =>
    intro i index k buffer hi hfuel hindex hshort hroom
    rw [buildLoop, charAt, if_pos hi, Option.bind_some]
    rcases hi.eq_or_lt with rfl | hlt
    · rw [List.drop_length] at hroom ⊢
      refine ⟨buffer, ?_, ?_⟩
      · rw [if_pos (by simp)]
      · rw [segments]
        exact .refl buffer
    · have hne : fmt.getD i '\x00' ≠ '\x00' := by
        rw [List.getD_eq_getElem?_getD, List.getElem?_eq_getElem hlt]
        exact fun h => hnull (h ▸ List.getElem_mem hlt)
      rw [if_neg hne, strcspn, if_pos hi, Option.bind_some, take_takeWhile]
      have hlen : (fmt.drop i).length = fmt.length - i := List.length_drop
      have hrest := drop_takeWhile (· ≠ '{') (fmt.drop i)
      rw [List.drop_drop] at hrest
      have hsplit : (fmt.drop i).takeWhile (· ≠ '{') ++ (fmt.drop i).dropWhile (· ≠ '{')
          = fmt.drop i := List.takeWhile_append_dropWhile
      have hhead : (fmt.drop i).dropWhile (· ≠ '{') = []
          ∨ ((fmt.drop i).dropWhile (· ≠ '{')).head? = some '{' := by
        rcases h : ((fmt.drop i).dropWhile (· ≠ '{')).head? with _ | c
        · exact .inl (List.head?_eq_none_iff.1 h)
        · have hnot := List.head?_dropWhile_not (· ≠ '{') (fmt.drop i)
          rw [h] at hnot
          exact .inr (by simpa using hnot)
      have hrun : '{' ∉ (fmt.drop i).takeWhile (· ≠ '{') := by
        intro hmem
        simpa using List.mem_takeWhile_imp hmem
      have hmem : ∀ c ∈ (fmt.drop i).takeWhile (· ≠ '{'), c ≠ '\x00' := by
        rintro c hc rfl
        exact hnull (List.mem_of_mem_drop ((List.takeWhile_prefix _).subset hc))
      have hlenrun : ((fmt.drop i).takeWhile (· ≠ '{')).length ≤ (fmt.drop i).length :=
        (List.takeWhile_prefix _).length_le
      have hsegs := segments_literal _ _ hrun hhead
      rw [hsplit] at hsegs
      generalize (fmt.drop i).takeWhile (· ≠ '{') = run at *
      generalize (fmt.drop i).dropWhile (· ≠ '{') = rest at *
      have hwritten : written args k (segments (fmt.drop i))
          = literalText run ++ written args k (segments rest) := by
        rw [hsegs]
        exact render_text _ _
      rw [hwritten, List.length_append] at hroom
      rw [hwritten]
      have hliteral := appends_literal run buffer hmem (by omega)
      have hroom' := hliteral.room (n := (written args k (segments rest)).length) (by omega)
      rcases hhead with rfl | hhead
      · -- no opening brace
        have hge := List.drop_eq_nil_iff.1 hrest
        refine ⟨literal buffer run, ?_, hliteral.trans ?_⟩
        · unfold afterBrace
          rw [if_neg (by omega), if_pos (by omega)]
        · rw [segments]
          exact .refl _
      · obtain ⟨rest, rfl⟩ := List.head?_eq_some_iff.1 hhead
        have htail : rest = fmt.drop (i + run.length + 1) := by
          rw [← List.tail_drop, hrest, List.tail_cons]
        have hlt' : i + run.length < fmt.length := by
          by_contra hge
          rw [List.drop_eq_nil_of_le (by omega)] at hrest
          cases hrest
        subst htail
        obtain ⟨b, hb, happend⟩ := writes_afterBrace (by omega) hindex
          (fun body hb => hshort body (by
            rw [hsegs]
            exact List.mem_append_right _ hb))
          (fun j index k buffer hj hle hindex hshort => ih j index k buffer hle (by omega) hindex
            hshort) hroom'
        exact ⟨b, hb, hliteral.trans happend⟩

theorem appends_buildFormatOutput (hnull : '\x00' ∉ fmt) (hshort : Short (segments fmt))
    (hroom : buffer.chars.length + (written args 0 (segments fmt)).length ≤ buffer.max_size) :
    ∃ b, buildFormatOutput buffer fmt args = some b
      ∧ buffer.Appends (written args 0 (segments fmt)) b :=
  writes_buildLoop hnull (fmt.length + 1) 0 0 0 buffer (Nat.zero_le _) (by omega) rfl hshort hroom

/-! ### The numbers of the placeholders -/

/-- Numbers that fit 32 bits are not changed by the cast. -/
theorem written_eq (segs : List Segment) (h : index + automaticCount segs ≤ 2 ^ 32) :
    written args index segs = render args id index segs := by
  induction segs generalizing index with
  | nil => rfl
  | cons seg segs ih =>
    unfold written at ih ⊢
    cases seg with
    | text c => rw [render, render, ih h]
    | placeholder body =>
      rw [automaticCount] at h
      rw [render, render]
      cases hid : argId body with
      | automatic =>
        rw [if_pos hid] at h
        dsimp only
        rw [Nat.mod_eq_of_lt (by omega), ih (by omega), id]
      | explicit position =>
        dsimp only
        rw [ih (by omega)]
      | invalid =>
        dsimp only
        rw [ih (by omega)]

/-- An argument without text. -/
def silent : FmtArg := ⟨fun _ => [], fun b _ => b, fun b _ _ => .refl b⟩

theorem length_argText_mod (index : ℕ) (body : List Char) :
    (argText [silent] (index % 2 ^ 32) body).length ≤ (argText [silent] index body).length := by
  rcases Nat.eq_zero_or_pos (index % 2 ^ 32) with h | h
  · rw [h]
    exact Nat.zero_le _
  · have out : ∀ n, 0 < n → argText [silent] n body = OUT_OF_RANGE := by
      intro n hn
      unfold argText
      rw [List.getElem?_eq_none (by exact hn)]
    have hpos : 0 < index := by
      by_contra h0
      rw [Nat.eq_zero_of_not_pos h0] at h
      exact Nat.lt_irrefl _ h
    rw [out _ h, out _ hpos]

/-- Nothing is written for a number whose cast is zero, which is out of range. -/
theorem length_written_le (segs : List Segment) (index : ℕ) :
    (written [silent] index segs).length ≤ (render [silent] id index segs).length := by
  induction segs generalizing index with
  | nil => exact Nat.le_refl _
  | cons seg segs ih =>
    unfold written at ih ⊢
    cases seg with
    | text c => exact Nat.succ_le_succ (ih index)
    | placeholder body =>
      rw [render, render]
      cases hid : argId body with
      | automatic =>
        have := length_argText_mod index body
        have := ih (index + 1)
        simp only [List.length_append, id]
        omega
      | explicit position =>
        have := ih index
        simp only [List.length_append]
        omega
      | invalid =>
        have := ih index
        simp only [List.length_append]
        omega

theorem length_written_lt (segs : List Segment) {index : ℕ} (hle : index ≤ 2 ^ 32)
    (hlt : 2 ^ 32 < index + automaticCount segs) :
    (written [silent] index segs).length < (render [silent] id index segs).length := by
  induction segs generalizing index with
  | nil =>
    rw [automaticCount] at hlt
    omega
  | cons seg segs ih =>
    unfold written at ih ⊢
    cases seg with
    | text c => exact Nat.succ_lt_succ (ih hle hlt)
    | placeholder body =>
      rw [automaticCount] at hlt
      rw [render, render]
      cases hid : argId body with
      | automatic =>
        rw [if_pos hid] at hlt
        simp only [List.length_append, id]
        rcases hle.eq_or_lt with rfl | hlt'
        · have hrest := length_written_le segs (2 ^ 32 + 1)
          unfold written at hrest
          have hzero : (argText [silent] (2 ^ 32 % 2 ^ 32) body).length = 0 := by
            rw [Nat.mod_self]
            rfl
          have hout : (argText [silent] (2 ^ 32) body).length = 32 := by
            unfold argText
            rw [List.getElem?_eq_none (by exact Nat.one_le_two_pow)]
            rfl
          omega
        · have := length_argText_mod index body
          have hrest := @ih (index + 1) (by omega) (by omega)
          omega
      | explicit position =>
        rw [if_neg (by rw [hid]; exact nofun)] at hlt
        have := ih hle (by omega)
        simp only [List.length_append]
        omega
      | invalid =>
        rw [if_neg (by rw [hid]; exact nofun)] at hlt
        have := ih hle (by omega)
        simp only [List.length_append]
        omega

theorem meets_iff_count (hnull : '\x00' ∉ fmt) (hshort : Short (segments fmt)) :
    Meets fmt ↔ automaticCount (segments fmt) ≤ 2 ^ 32 := by
  constructor
  · intro h
    by_contra hlt
    have hlen := length_written_lt (segments fmt) (Nat.zero_le _) (by omega)
    -- an empty buffer that just holds the output asked for
    obtain ⟨buffer, hnil, hsize⟩ : ∃ b : StringBuffer,
        b.chars = [] ∧ b.max_size = (output fmt [silent]).length :=
      ⟨⟨[], _, Nat.zero_le _⟩, rfl, rfl⟩
    have hroom : buffer.chars.length + (output fmt [silent]).length ≤ buffer.max_size := by
      rw [hnil, hsize, List.length_nil, Nat.zero_add]
    obtain ⟨b, hb, hchars⟩ := h [silent] buffer hroom
    obtain ⟨b', hb', happend⟩ := appends_buildFormatOutput hnull hshort
      ((Nat.add_le_add_left hlen.le _).trans hroom)
    rw [hb] at hb'
    obtain rfl := Option.some.inj hb'
    rw [happend.chars, List.append_cancel_left_eq] at hchars
    rw [hchars] at hlen
    exact Nat.lt_irrefl _ hlen
  · intro h args buffer hroom
    have heq : written args 0 (segments fmt) = output fmt args := written_eq _ (by omega)
    rw [← heq] at hroom ⊢
    obtain ⟨b, hb, happend⟩ := appends_buildFormatOutput hnull hshort hroom
    exact ⟨b, hb, happend.chars⟩

/-! ### Doubled braces -/

theorem escape_cons (c : Char) (s : List Char) :
    escape (c :: s) = (if c = '{' ∨ c = '}' then [c, c] else [c]) ++ escape s :=
  List.flatMap_cons

theorem segments_escape (s : List Char) : segments (escape s) = s.map .text := by
  induction s with
  | nil => rw [escape, List.flatMap_nil, segments, List.map_nil]
  | cons c s ih =>
    rw [escape_cons, List.map_cons]
    split_ifs with h
    · rw [List.cons_append, List.singleton_append]
      rcases h with rfl | rfl
      · rw [segments_brace, List.head?_cons, if_pos rfl, List.tail_cons, ih]
      · rw [segments, if_neg (by decide), List.head?_cons, if_pos ⟨rfl, rfl⟩, List.tail_cons, ih]
    · rw [not_or] at h
      rw [List.singleton_append, segments, if_neg h.1, if_neg fun hc => h.2 hc.1, ih]

theorem output_escape (s : List Char) : output (escape s) args = s := by
  unfold output
  rw [segments_escape, ← List.append_nil (s.map _), render_text]
  exact List.append_nil s

theorem meets_escape {s : List Char} (hnull : '\x00' ∉ s) : Meets (escape s) := by
  refine (meets_iff_count ?_ ?_).2 ?_
  · intro h
    obtain ⟨c, hc, h⟩ := List.mem_flatMap.1 h
    split_ifs at h <;> simp at h <;> exact hnull (h ▸ hc)
  · intro body hb
    rw [segments_escape] at hb
    obtain ⟨c, -, hc⟩ := List.mem_map.1 hb
    cases hc
  · have hcount : ∀ l : List Char, automaticCount (l.map .text) = 0 := by
      intro l
      induction l with
      | nil => rfl
      | cons c l ih => rw [List.map_cons, automaticCount, ih]
    rw [segments_escape, hcount]
    exact Nat.zero_le _

/-- The driver writes what the format string and the arguments ask for, for every argument list, if
and only if the string has no more than `2 ^ 32` placeholders without an id; and a text with its
braces doubled yields the text. -/
theorem meets_iff (hnull : '\x00' ∉ fmt) (hshort : Short (segments fmt)) :
    (Meets fmt ↔ automaticCount (segments fmt) ≤ 2 ^ 32)
      ∧ ∀ s : List Char, '\x00' ∉ s → Meets (escape s) ∧ ∀ args, output (escape s) args = s :=
  ⟨meets_iff_count hnull hshort, fun s hs => ⟨meets_escape hs, fun _ => output_escape s⟩⟩

/-- A placeholder with an id, one without, and escaped braces. -/
theorem meets_iff_mixed : Meets "{0}{}{{}}".toList
    ∧ output "{0}{}{{}}".toList [⟨fun _ => ['a'], fun b _ => b.append ['a'],
      fun _ _ => StringBuffer.appends_append⟩] = "aa{}".toList := by
  have hsegs : segments "{0}{}{{}}".toList
      = [.placeholder ['0'], .placeholder [], .text '{', .text '}'] := by
    simp [segments]
  have hshort : Short (segments "{0}{}{{}}".toList) := by
    rw [hsegs]
    intro body hb
    simp only [List.mem_cons, Segment.placeholder.injEq, reduceCtorEq, List.not_mem_nil, or_false]
      at hb
    rcases hb with rfl | rfl <;> decide
  refine ⟨(meets_iff (by decide) hshort).1.2 ?_, ?_⟩
  · rw [hsegs]
    decide
  · unfold output
    rw [hsegs]
    decide

/-- `n` placeholders without an id. -/
def placeholders (n : ℕ) : List Char := (List.replicate n ['{', '}']).flatten

theorem segments_placeholders (n : ℕ) :
    segments (placeholders n) = List.replicate n (.placeholder []) := by
  induction n with
  | zero => rw [placeholders, List.replicate_zero, List.flatten_nil, segments, List.replicate_zero]
  | succ n ih =>
    have hcons : placeholders (n + 1) = '{' :: '}' :: placeholders n := by
      rw [placeholders, List.replicate_succ, List.flatten_cons]
      rfl
    rw [hcons, segments_brace, List.replicate_succ, ← ih]
    simp

theorem automaticCount_replicate (n : ℕ) :
    automaticCount (List.replicate n (.placeholder [])) = n := by
  induction n with
  | zero => rfl
  | succ n ih =>
    rw [List.replicate_succ, automaticCount, ih, if_pos (by decide)]
    omega

/-- The number of one placeholder too many is cast to zero, and the first argument is written where
the position is out of range. -/
theorem not_meets_placeholders : '\x00' ∉ placeholders (2 ^ 32 + 1)
    ∧ Short (segments (placeholders (2 ^ 32 + 1))) ∧ ¬ Meets (placeholders (2 ^ 32 + 1)) := by
  have hnull : ∀ n, '\x00' ∉ placeholders n := by
    intro n h
    obtain ⟨l, hl, hmem⟩ := List.mem_flatten.1 h
    rw [List.eq_of_mem_replicate hl] at hmem
    revert hmem
    decide
  have hshort : ∀ n, Short (segments (placeholders n)) := by
    intro n body hb
    rw [segments_placeholders] at hb
    cases List.eq_of_mem_replicate hb
    exact Nat.zero_le _
  have hfails : ∀ n, 2 ^ 32 < n → ¬ Meets (placeholders n) := by
    intro n hn h
    rw [meets_iff_count (hnull n) (hshort n), segments_placeholders, automaticCount_replicate] at h
    omega
  exact ⟨hnull _, hshort _, hfails _ (Nat.lt_succ_self _)⟩

end MinStd.FormatOutput

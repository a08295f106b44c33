import OnyxKernel.Fs.Format
import OnyxKernel.Tools.Compress

/-!
# The compressor of the snapshots

`kernel/src/fs/onyxfs/compress.rs`.  The compressor chooses the same tokens as the one of `elf2onx`, but
writes them into a buffer of fixed size; it returns the number of bytes written, or 0 when the buffer is too
small, and leaves what it has written so far in the buffer.  A position in the source is the list of the bytes
from there on, and the output is the list of the bytes written so far.

What is compressed is decompressed to the same bytes.  No text is its own compressed form.
-/

namespace OnyxKernel.Onyxfs

open RunLength List Nat Token Option UInt8

open Elf2onx

/-- The loop of `rle_compress` into a buffer of `cap` bytes. -/
def rleCompressLoop (cap : ℕ) (src out : List UInt8) : ℕ × List UInt8 :=
  match src with
  | [] => (out.length, out)
  | cur :: rest =>
    if 3 ≤ runLoop 128 cur rest 1 then
      if cap < out.length + 2 then (0, out)
      else rleCompressLoop cap ((cur :: rest).drop (runLoop 128 cur rest 1))
        (out ++ [ofNat (0x80 ||| (runLoop 128 cur rest 1 - 1)), cur])
    else
      if cap < out.length + 1 + litLength (cur :: rest) then (0, out)
      else rleCompressLoop cap ((cur :: rest).drop (litLength (cur :: rest)))
        (out ++ ofNat (litLength (cur :: rest) - 1) :: (cur :: rest).take (litLength (cur :: rest)))
termination_by src.length
decreasing_by
  · rw [length_drop]
    exact sub_lt (succ_pos _) (le_runLoop 128 cur rest 1)
  · rw [length_drop]
    exact sub_lt (succ_pos _) (litLength_pos (cur :: rest))

/-- `rle_compress`: the returned size and the bytes at the beginning of `dst`. -/
def rleCompress (src : List UInt8) (cap : ℕ) : ℕ × List UInt8 := rleCompressLoop cap src []

/-- The loop of `rle_decompress` into a buffer of `cap` bytes. -/
def rleDecompressLoop (cap : ℕ) (src out : List UInt8) : ℕ × List UInt8 :=
  if out.length < cap then
    match src with
    | [] => (out.length, out)
    | tag :: rest =>
      if tag.toNat &&& 0x80 ≠ 0 then
        match rest with
        | [] => (0, out)
        | val :: rest =>
          if cap < out.length + ((tag.toNat &&& 0x7F) + 1) then (0, out)
          else rleDecompressLoop cap rest (out ++ replicate ((tag.toNat &&& 0x7F) + 1) val)
      else
        if rest.length < tag.toNat + 1 ∨ cap < out.length + (tag.toNat + 1) then (0, out)
        else rleDecompressLoop cap (rest.drop (tag.toNat + 1)) (out ++ rest.take (tag.toNat + 1))
  else (out.length, out)
termination_by src.length
decreasing_by
  · simp only [length_cons]
    omega
  · rw [length_drop, length_cons]
    omega

/-- `rle_decompress`: the returned size and the bytes at the beginning of `dst`. -/
def rleDecompress (src : List UInt8) (cap : ℕ) : ℕ × List UInt8 := rleDecompressLoop cap src []

/-- The bytes `src[i..i + n]`. -/
def readAt (src : List UInt8) (i n : ℕ) : Option (List UInt8) :=
  if i + n ≤ src.length then some ((src.drop i).take n) else none

/-- The bytes of `dst` after a write behind `out`. -/
def writeAt (cap : ℕ) (out bytes : List UInt8) : Option (List UInt8) :=
  if out.length + bytes.length ≤ cap then some (out ++ bytes) else none

/-- The loop of `rle_decompress` with the index `i` in the source; an access outside of `src` or `dst` is `none`. -/
def rleDecompressAt (src : List UInt8) (cap i : ℕ) (out : List UInt8) : Option (ℕ × List UInt8) :=
  if h : i < src.length ∧ out.length < cap then
    let tag := src.get ⟨i, h.1⟩
    if tag.toNat &&& 0x80 ≠ 0 then
      let count := (tag.toNat &&& 0x7F) + 1
      if src.length ≤ i + 1 ∨ cap < out.length + count then some (0, out)
      else do
        let val ← src[i + 1]?
        let out ← writeAt cap out (replicate count val)
        rleDecompressAt src cap (i + 2) out
    else
      let count := tag.toNat + 1
      if src.length < i + 1 + count ∨ cap < out.length + count then some (0, out)
      else do
        let bytes ← readAt src (i + 1) count
        let out ← writeAt cap out bytes
        rleDecompressAt src cap (i + 1 + count) out
  else some (out.length, out)
termination_by src.length - i

variable {cap : ℕ} {src out : List UInt8} {n m : ℕ} {cur : UInt8} {tail : List UInt8}

/-! ### The round trip -/

lemma rleCompressLoop_eq (hcap : out.length + (rleLoop src).length ≤ cap) :
    rleCompressLoop cap src out = (out.length + (rleLoop src).length, out ++ rleLoop src) := by
  fun_induction rleLoop src generalizing out with
  | case1 =>
    rw [rleCompressLoop, length_nil, append_nil]
    rfl
  | case2 cur rest hrun ih =>
    rw [length_cons, length_cons] at hcap
    have hlen : (out ++ [ofNat (0x80 ||| (runLoop 128 cur rest 1 - 1)), cur]).length = out.length + 2 := by
      rw [length_append]
      rfl
    rw [rleCompressLoop, if_pos hrun, if_neg (by omega), ih (by omega), hlen]
    refine Prod.ext ?_ (append_assoc ..)
    simp only [length_cons]
    omega
  | case3 cur rest hrun ih =>
    obtain ⟨hle, -, -⟩ := litLength_spec (cons_ne_nil cur rest) hrun
    have htake : ((cur :: rest).take (litLength (cur :: rest))).length = litLength (cur :: rest) :=
      length_take_of_le hle
    rw [length_cons, length_append, htake] at hcap
    have hlen : (out ++ ofNat (litLength (cur :: rest) - 1) :: (cur :: rest).take (litLength (cur :: rest))).length =
        out.length + (litLength (cur :: rest) + 1) := by
      rw [length_append, length_cons, htake]
    rw [rleCompressLoop, if_neg hrun, if_neg (by omega), ih (by omega), hlen]
    refine Prod.ext ?_ (append_assoc ..)
    simp only [length_cons, length_append, htake]
    omega

lemma rleDecompressLoop_encode (ts : List Token) (out : List UInt8) (hvalid : ∀ t ∈ ts, t.Valid)
    (hcap : out.length + (expand ts).length ≤ cap) :
    rleDecompressLoop cap (encode ts) out = (out.length + (expand ts).length, out ++ expand ts) := by
  induction ts generalizing out with
  | nil =>
    rw [rleDecompressLoop.eq_def]
    change (if out.length < cap then (out.length, out) else (out.length, out)) = (out.length, out ++ [])
    rw [ite_self, append_nil]
  | cons t ts ih =>
    obtain ⟨hpos, hmax⟩ := hvalid t mem_cons_self
    have hrest := fun out => ih out fun t' ht' => hvalid t' (mem_cons_of_mem t ht')
    rw [expand_cons, length_append, t.length_expand] at hcap ⊢
    rw [encode_cons, rleDecompressLoop.eq_def, if_pos (by omega)]
    have hnext : rleDecompressLoop cap (encode ts) (out ++ t.expand) =
        (out.length + (t.count + (expand ts).length), out ++ (t.expand ++ expand ts)) := by
      rw [hrest _ (by rw [length_append, t.length_expand]; omega), length_append, t.length_expand,
        add_assoc, append_assoc]
    cases t with
    | run n b =>
      rw [Token.count] at hpos hmax hcap
      simp only [Token.encode, cons_append, nil_append, Token.toNat_run hpos hmax, run_and_count hpos hmax]
      rwa [if_pos (run_and_bit hpos hmax), Nat.sub_add_cancel hpos, if_neg (by omega)]
    | literal bytes =>
      rw [Token.count] at hpos hmax hcap
      simp only [Token.encode, cons_append, Token.toNat_literal hpos hmax]
      rw [if_neg (not_not.mpr (literal_and_bit hpos hmax)), Nat.sub_add_cancel hpos,
        if_neg (by rw [length_append]; omega), drop_left, take_left]
      exact hnext

lemma rleDecompress_rleLoop (src : List UInt8) :
    rleDecompress (rleLoop src) src.length = (src.length, src) := by
  obtain ⟨ts, hvalid, henc, hexp⟩ := rleLoop_tokens src
  rw [rleDecompress, ← henc, rleDecompressLoop_encode ts [] hvalid (by rw [hexp]; simp), hexp, length_nil,
    zero_add, nil_append]

lemma rleDecompressAt_eq (src : List UInt8) (cap i : ℕ) (out : List UInt8) :
    rleDecompressAt src cap i out = some (rleDecompressLoop cap (src.drop i) out) := by
  fun_induction rleDecompressAt src cap i out with
  | case1 i out h tag hrun count hstop =>
    have hdrop : src.drop i = tag :: src.drop (i + 1) := drop_eq_getElem_cons h.1
    rw [hdrop, rleDecompressLoop.eq_def, if_pos h.2]
    dsimp only
    rw [if_pos hrun]
    rcases hstop with hend | hfull
    · rw [drop_eq_nil_of_le hend]
    · split
      · rfl
      · rw [if_pos hfull]
  | case2 i out h tag hrun count hstop ih =>
    rw [not_or, not_le, not_lt] at hstop
    have hdrop : src.drop i = tag :: src.drop (i + 1) := drop_eq_getElem_cons h.1
    rw [hdrop, drop_eq_getElem_cons hstop.1, rleDecompressLoop.eq_def, if_pos h.2, getElem?_eq_getElem hstop.1]
    dsimp only
    rw [if_pos hrun, if_neg (not_lt.mpr hstop.2)]
    refine (bind_some ..).trans ?_
    rw [writeAt, if_pos (by rw [length_replicate]; exact hstop.2)]
    exact ih _
  | case3 i out h tag hlit count hstop =>
    have hdrop : src.drop i = tag :: src.drop (i + 1) := drop_eq_getElem_cons h.1
    rw [hdrop, rleDecompressLoop.eq_def, if_pos h.2]
    dsimp only
    rw [if_neg hlit, if_pos (by rw [length_drop]; omega)]
  | case4 i out h tag hlit count hstop ih =>
    rw [not_or, not_lt, not_lt] at hstop
    have hlen : ((src.drop (i + 1)).take count).length = count := by
      rw [length_take, length_drop]
      omega
    have hdrop : src.drop i = tag :: src.drop (i + 1) := drop_eq_getElem_cons h.1
    rw [hdrop, rleDecompressLoop.eq_def, if_pos h.2, readAt, if_pos hstop.1]
    dsimp only
    rw [if_neg hlit, if_neg (by rw [length_drop]; omega), drop_drop]
    refine (bind_some ..).trans ?_
    rw [writeAt, if_pos (by rw [hlen]; exact hstop.2)]
    exact ih _
  | case5 i out h =>
    rw [rleDecompressLoop.eq_def]
    split
    · rw [drop_eq_nil_of_le (by omega)]
    · rfl

lemma rleCompress_eq (src : List UInt8) (extra : ℕ) :
    rleCompress src (src.length + src.length / 128 + 2 + extra) = ((rleLoop src).length, rleLoop src) := by
  have hle := (length_rleLoop_le src).1
  rw [rleCompress, rleCompressLoop_eq (by rw [length_nil]; omega), length_nil, zero_add, nil_append]

/-- A text that is compressed into a buffer that is large enough is decompressed to itself, and the decompressor does
not leave its buffers on any input. -/
theorem rle_round_trip (src : List UInt8) (extra : ℕ) (bytes : List UInt8) (cap : ℕ) :
    (∃ r, rleDecompressAt bytes cap 0 [] = some r) ∧
      ∃ out, rleCompress src (src.length + src.length / 128 + 2 + extra) = (out.length, out) ∧
        rleDecompressAt out src.length 0 [] = some (src.length, src) := by
  refine ⟨⟨_, rleDecompressAt_eq ..⟩, rleLoop src, rleCompress_eq src extra, ?_⟩
  rw [rleDecompressAt_eq, drop_zero]
  exact congrArg some (rleDecompress_rleLoop src)

/-! ### No text is its own compressed form -/

lemma head_drop_runLoop (limit : ℕ) (cur : UInt8) (src : List UInt8) (run : ℕ)
    (hlt : runLoop limit cur src run < limit) : (src.drop (runLoop limit cur src run - run)).head? ≠ some cur := by
  fun_induction runLoop limit cur src run with
  | case1 run => simp
  | case2 b src run hgo ih =>
    have hle := le_runLoop limit cur src (run + 1)
    rw [show runLoop limit cur src (run + 1) - run = runLoop limit cur src (run + 1) - (run + 1) + 1 by omega,
      drop_succ_cons]
    exact ih hlt
  | case3 b src run hstop =>
    rw [Nat.sub_self, drop_zero, head?_cons]
    intro heq
    exact hstop ⟨some.inj heq, hlt⟩

lemma rleLoop_cases {src : List UInt8} (hne : src ≠ []) :
    (∃ n cur tail, 3 ≤ n ∧ n ≤ 128 ∧ src = replicate n cur ++ tail ∧ (n < 128 → tail.head? ≠ some cur) ∧
      rleLoop src = ofNat (0x80 ||| (n - 1)) :: cur :: rleLoop tail) ∨
    (∃ lit tail, lit ≠ [] ∧ lit.length ≤ 128 ∧ src = lit ++ tail ∧ ¬ StartsRun src ∧
      (tail = [] ∨ lit.length = 128 ∨ StartsRun tail) ∧
      rleLoop src = ofNat (lit.length - 1) :: (lit ++ rleLoop tail)) := by
  fun_cases rleLoop src with
  | case1 => exact absurd rfl hne
  | case2 cur rest hrun =>
    obtain ⟨n, hn, htake, hlen, hle⟩ := runLoop_spec 128 cur rest 1
    have hstop := head_drop_runLoop 128 cur rest 1
    rw [hn, Nat.add_sub_cancel_left] at hstop
    rw [hn] at hrun ⊢
    refine .inl ⟨1 + n, cur, rest.drop n, hrun, hle (by decide), ?_, hstop, ?_⟩
    · rw [add_comm 1 n, replicate_succ, ← htake, cons_append, take_append_drop]
    · rw [add_comm 1 n, drop_succ_cons]
  | case3 cur rest hrun =>
    obtain ⟨hlen, hmax, hwhy⟩ := litLength_spec (cons_ne_nil cur rest) hrun
    have hpos := litLength_pos (cur :: rest)
    have htake : ((cur :: rest).take (litLength (cur :: rest))).length = litLength (cur :: rest) :=
      length_take_of_le hlen
    refine .inr ⟨(cur :: rest).take (litLength (cur :: rest)), (cur :: rest).drop (litLength (cur :: rest)), ?_,
      htake.trans_le hmax, (take_append_drop ..).symm, hrun, ?_, by rw [htake]⟩
    · rwa [← length_pos_iff, htake]
    · rw [htake]
      exact hwhy.imp_left fun h => by rw [h, drop_length]

lemma startsRun_iff_exists {src : List UInt8} : StartsRun src ↔ ∃ b l, src = b :: b :: b :: l := by
  constructor
  · intro h
    cases src with
    | nil => exact h.elim
    | cons b src =>
      obtain ⟨n, hn, htake, hlen, -⟩ := runLoop_spec 128 b src 1
      have htwo : 2 ≤ n := by
        rw [StartsRun, hn] at h
        omega
      have hsrc : src = replicate n b ++ src.drop n := by rw [← htake, take_append_drop]
      obtain ⟨k, rfl⟩ := Nat.exists_eq_add_of_le' htwo
      exact ⟨b, replicate k b ++ src.drop (k + 2), by rw [hsrc]; simp [replicate_succ]⟩
  · rintro ⟨b, l, rfl⟩
    rw [startsRun_iff, runLoop, if_pos ⟨rfl, by decide⟩, runLoop, if_pos ⟨rfl, by decide⟩, runLoop,
      if_pos ⟨rfl, by decide⟩]
    exact le_runLoop 3 b l 3

lemma ofNat_run_ne_literal (hn : 0 < n) (hn' : n ≤ 128) (hm : 0 < m) (hm' : m ≤ 128) :
    ofNat (m - 1) ≠ ofNat (0x80 ||| (n - 1)) := by
  intro heq
  have heq := congrArg toNat heq
  rw [toNat_literal hm hm', toNat_run hn hn'] at heq
  omega

lemma ofNat_run_inj (hn : 0 < n) (hn' : n ≤ 128) (hm : 0 < m) (hm' : m ≤ 128)
    (heq : ofNat (0x80 ||| (m - 1)) = ofNat (0x80 ||| (n - 1))) : m = n := by
  have heq := congrArg toNat heq
  rw [toNat_run hm hm', toNat_run hn hn'] at heq
  omega

lemma rleLoop_ne_replicate_append (src : List UInt8) {d : ℕ} (hd : 2 ≤ d) :
    rleLoop src ≠ replicate d (ofNat (0x80 ||| (128 - 1))) ++ src := by
  induction hlen : src.length using Nat.strong_induction_on generalizing src d with
  | _ len ih =>
    intro heq
    obtain ⟨k, rfl⟩ := Nat.exists_eq_add_of_le' hd
    have hne : src ≠ [] := by
      rintro rfl
      simp [rleLoop, replicate_succ] at heq
    rcases rleLoop_cases hne with ⟨n, cur, tail, hn, hn', hsrc, -, hloop⟩ | ⟨lit, tail, hlit, hlit', -, -, -, hloop⟩
    · rw [hloop, replicate_succ, replicate_succ, cons_append, cons_append, cons.injEq, cons.injEq] at heq
      obtain ⟨htag, rfl, htail⟩ := heq
      rw [hsrc, ← append_assoc, ← replicate_add] at htail
      refine ih tail.length ?_ tail (by omega) rfl htail
      rw [← hlen, hsrc, length_append, length_replicate]
      omega
    · rw [hloop, replicate_succ, cons_append, cons.injEq] at heq
      exact ofNat_run_ne_literal (by decide) le_rfl (length_pos_iff.mpr hlit) hlit' heq.1

lemma head?_of_rleLoop_eq {src : List UInt8} {c : UInt8} (heq : rleLoop src = c :: c :: src) : src.head? = some c := by
  have hne : src ≠ [] := by
    rintro rfl
    simp [rleLoop] at heq
  rcases rleLoop_cases hne with ⟨n, cur, tail, hn, -, hsrc, -, hloop⟩ | ⟨lit, tail, hlit, -, hsrc, -, -, hloop⟩
  · rw [hloop, cons.injEq, cons.injEq] at heq
    obtain ⟨k, rfl⟩ := Nat.exists_eq_add_of_le' (show 1 ≤ n by omega)
    rw [hsrc, replicate_succ, ← heq.2.1]
    rfl
  · obtain ⟨a, lit, rfl⟩ := exists_cons_of_ne_nil hlit
    rw [hloop, cons_append, cons.injEq, cons.injEq] at heq
    rw [hsrc, ← heq.2.1]
    rfl

lemma rleLoop_ne_self {src : List UInt8} (hne : src ≠ []) : rleLoop src ≠ src := by
  intro heq
  rcases rleLoop_cases hne with ⟨n, cur, tail, hn, hn', hsrc, hstop, hloop⟩ |
    ⟨lit, tail, hlit, hlit', hsrc, hrun, hwhy, hloop⟩
  · -- the text begins with a run of the byte that stands for it
    obtain ⟨k, rfl⟩ := Nat.exists_eq_add_of_le' (show 2 ≤ n by omega)
    rw [hloop, hsrc, replicate_succ, replicate_succ, cons_append, cons_append, cons.injEq, cons.injEq] at heq
    obtain ⟨htag, -, htail⟩ := heq
    rcases hn'.eq_or_lt with hmax | hlt
    · obtain rfl : k = 126 := by omega
      rw [← htag] at htail
      exact rleLoop_ne_replicate_append tail (by decide) htail
    have hhead := hstop hlt
    obtain ⟨j, rfl⟩ := Nat.exists_eq_add_of_le' (show 1 ≤ k by omega)
    rw [replicate_succ, cons_append] at htail
    have htne : tail ≠ [] := by
      rintro rfl
      simp [rleLoop] at htail
    rcases rleLoop_cases htne with ⟨n', c, tail', hn1, hn1', htsrc, hstop', htloop⟩ |
      ⟨lit, tail', hlit, hlit', -, -, -, htloop⟩
    · -- another run of the same length follows, so that both are of three bytes
      obtain ⟨i, rfl⟩ := Nat.exists_eq_add_of_le' (show 1 ≤ n' by omega)
      have hc : c ≠ cur := by
        rintro rfl
        refine hhead ?_
        rw [htsrc, replicate_succ]
        rfl
      rw [htloop, cons.injEq] at htail
      obtain ⟨htag', htail⟩ := htail
      have hlen := ofNat_run_inj (by omega) hn' (by omega) hn1' (htag'.trans htag.symm)
      cases j with
      | succ j =>
        rw [replicate_succ, cons_append, cons.injEq] at htail
        exact hc htail.1
      | zero =>
        obtain rfl : i = 2 := by omega
        rw [htsrc] at htail
        have hlast : rleLoop tail' = c :: c :: tail' := (cons.inj htail).2
        exact hstop' (by decide) (head?_of_rleLoop_eq hlast)
    · rw [htloop, cons.injEq] at htail
      exact ofNat_run_ne_literal (by omega) hn' (length_pos_iff.mpr hlit) hlit' (htail.1.trans htag.symm)
  · -- a literal text that repeats its first byte is a run
    obtain ⟨a, lit, rfl⟩ := exists_cons_of_ne_nil hlit
    rw [hloop, hsrc] at heq
    cases lit with
    | cons b lit =>
      simp only [cons_append, cons.injEq] at heq
      obtain ⟨-, rfl, hrest⟩ := heq
      refine hrun (startsRun_iff_exists.mpr ⟨a, lit ++ rleLoop tail, ?_⟩)
      rw [hsrc, cons_append, cons_append, ← hrest]
    | nil =>
      simp only [cons_append, nil_append, cons.injEq] at heq
      obtain ⟨-, htail⟩ := heq
      rcases hwhy with rfl | hfull | hstart
      · simp at htail
      · simp at hfull
      · obtain ⟨b, l, rfl⟩ := startsRun_iff_exists.mp hstart
        obtain ⟨rfl, -⟩ := cons.inj htail
        exact hrun (startsRun_iff_exists.mpr ⟨a, a :: l, by rw [hsrc]; rfl⟩)

/-! ### Evaluation -/

/-- The loop with a bound on its rounds. -/
def rleRounds : ℕ → List UInt8 → List UInt8
  | 0, _ => []
  | _ + 1, [] => []
  | fuel + 1, cur :: rest =>
    if 3 ≤ runLoop 128 cur rest 1 then
      ofNat (0x80 ||| (runLoop 128 cur rest 1 - 1)) :: cur ::
        rleRounds fuel ((cur :: rest).drop (runLoop 128 cur rest 1))
    else
      ofNat (litLength (cur :: rest) - 1) :: ((cur :: rest).take (litLength (cur :: rest)) ++
        rleRounds fuel ((cur :: rest).drop (litLength (cur :: rest))))

lemma rleLoop_eq_rleRounds {src : List UInt8} {fuel : ℕ} (h : src.length ≤ fuel) :
    rleLoop src = rleRounds fuel src := by
  induction fuel generalizing src with
  | zero => rw [length_eq_zero_iff.mp (le_zero.mp h), rleLoop, rleRounds]
  | succ fuel ih =>
    cases src with
    | nil => rw [rleLoop, rleRounds]
    | cons cur rest =>
      have hrun := le_runLoop 128 cur rest 1
      have hlit := litLength_pos (cur :: rest)
      have hdrop : ∀ n, 0 < n → ((cur :: rest).drop n).length ≤ fuel := fun n hn => by
        rw [length_drop]
        omega
      rw [rleLoop, rleRounds, ih (hdrop _ hrun), ih (hdrop _ hlit)]

end OnyxKernel.Onyxfs

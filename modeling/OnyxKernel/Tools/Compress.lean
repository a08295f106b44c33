import OnyxKernel.Foundation.RunLength

/-!
# The compressor of `elf2onx`

`tools/src/elf2onx/compress.rs`.  The position `i` in the source is the list of the bytes from there on.
`rle_compress` writes into a vector of `n + n / 128 + 2` bytes and would panic behind its end, which is
the outcome `none`; the tokens that the compressor chooses never need more than `n + n / 128 + 1` bytes.
-/

namespace OnyxKernel.Elf2onx

open RunLength List Nat UInt8

/-! ### The compressor -/

/-- The loops that count a run of `cur`, up to `limit`. -/
def runLoop (limit : ℕ) (cur : UInt8) : List UInt8 → ℕ → ℕ
  | [], run => run
  | b :: src, run => if b = cur ∧ run < limit then runLoop limit cur src (run + 1) else run

/-- The loop that counts literal bytes: it stops before a run of three. -/
def litLoop : List UInt8 → ℕ → ℕ
  | [], litLen => litLen
  | b :: src, litLen =>
    if litLen < 128 then
      if 3 ≤ runLoop 3 b (b :: src) 0 then litLen else litLoop src (litLen + 1)
    else litLen

/-- The number of literal bytes. -/
def litLength (src : List UInt8) : ℕ := if litLoop src 0 = 0 then 1 else litLoop src 0

lemma le_runLoop (limit : ℕ) (cur : UInt8) (src : List UInt8) (run : ℕ) :
    run ≤ runLoop limit cur src run := by
  fun_induction runLoop limit cur src run with
  | case1 => exact le_rfl
  | case2 _ _ _ _ ih => exact (le_succ _).trans ih
  | case3 => exact le_rfl

lemma litLength_pos (src : List UInt8) : 0 < litLength src := by
  unfold litLength
  split_ifs with h
  · exact one_pos
  · exact pos_of_ne_zero h

/-- The main loop of `rle_compress`. -/
def rleLoop (src : List UInt8) : List UInt8 :=
  match src with
  | [] => []
  | cur :: rest =>
    if 3 ≤ runLoop 128 cur rest 1 then
      ofNat (0x80 ||| (runLoop 128 cur rest 1 - 1)) :: cur ::
        rleLoop ((cur :: rest).drop (runLoop 128 cur rest 1))
    else
      ofNat (litLength (cur :: rest) - 1) :: ((cur :: rest).take (litLength (cur :: rest)) ++
        rleLoop ((cur :: rest).drop (litLength (cur :: rest))))
termination_by src.length
decreasing_by
  · rw [length_drop]
    exact sub_lt (succ_pos _) (le_runLoop 128 cur rest 1)
  · rw [length_drop]
    exact sub_lt (succ_pos _) (litLength_pos (cur :: rest))

def rleCompress (src : List UInt8) : Option (List UInt8) :=
  if (rleLoop src).length ≤ src.length + src.length / 128 + 2 then some (rleLoop src) else none

/-! ### Runs and literals -/

lemma runLoop_spec (limit : ℕ) (cur : UInt8) : ∀ (src : List UInt8) (run : ℕ),
    ∃ n, runLoop limit cur src run = run + n ∧ src.take n = replicate n cur ∧ n ≤ src.length ∧
      (run ≤ limit → run + n ≤ limit)
  | [], run => ⟨0, rfl, rfl, le_rfl, fun h => h⟩
  | b :: src, run => by
    rw [runLoop]
    by_cases hgo : b = cur ∧ run < limit
    · obtain ⟨n, hn, htake, hlen, hle⟩ := runLoop_spec limit cur src (run + 1)
      refine ⟨n + 1, ?_, ?_, succ_le_succ hlen, fun _ => ?_⟩
      · rw [if_pos hgo, hn]
        omega
      · rw [take_succ_cons, htake, hgo.1, replicate_succ]
      · have := hle hgo.2
        omega
    · exact ⟨0, if_neg hgo, rfl, zero_le _, fun h => h⟩

lemma runLoop_mono {limit limit' : ℕ} (cur : UInt8) : ∀ (src : List UInt8) (run : ℕ),
    run ≤ limit → limit ≤ limit' →
    runLoop limit cur src run = min limit (runLoop limit' cur src run)
  | [], run, hrun, _ => (min_eq_right hrun).symm
  | b :: src, run, hrun, hle => by
    rw [runLoop, runLoop]
    by_cases hb : b = cur
    · by_cases hlt : run < limit
      · rw [if_pos ⟨hb, hlt⟩, if_pos ⟨hb, hlt.trans_le hle⟩]
        exact runLoop_mono cur src (run + 1) hlt hle
      · rw [if_neg fun h => hlt h.2]
        have heq : run = limit := le_antisymm hrun (not_lt.mp hlt)
        split_ifs
        · have hge := le_runLoop limit' cur src (run + 1)
          rwa [min_eq_left (by omega)]
        · rw [min_eq_right hrun]
    · rw [if_neg fun h => hb h.1, if_neg fun h => hb h.1, min_eq_right hrun]

/-- Does the source start with a run that is compressed? -/
def StartsRun : List UInt8 → Prop
  | [] => False
  | cur :: rest => 3 ≤ runLoop 128 cur rest 1

lemma startsRun_iff (b : UInt8) (src : List UInt8) : StartsRun (b :: src) ↔ 3 ≤ runLoop 3 b (b :: src) 0 := by
  have hfirst : runLoop 3 b (b :: src) 0 = runLoop 3 b src 1 := if_pos ⟨rfl, by decide⟩
  have hmono : runLoop 3 b src 1 = min 3 (runLoop 128 b src 1) :=
    runLoop_mono b src 1 (by decide) (by decide)
  rw [hfirst, hmono, StartsRun]
  omega

lemma litLoop_spec : ∀ (src : List UInt8) (litLen : ℕ), litLen ≤ 128 →
    ∃ n, litLoop src litLen = litLen + n ∧ n ≤ src.length ∧ litLen + n ≤ 128 ∧
      (n = src.length ∨ litLen + n = 128 ∨ StartsRun (src.drop n)) ∧
      (¬ StartsRun src → src ≠ [] → litLen < 128 → 0 < n)
  | [], litLen, hle => ⟨0, rfl, le_rfl, hle, .inl rfl, fun _ hne => absurd rfl hne⟩
  | b :: src, litLen, hle => by
    rw [litLoop]
    by_cases hlt : litLen < 128
    swap
    · exact ⟨0, if_neg hlt, zero_le _, hle, .inr (.inl (by omega)), fun _ _ h => absurd h hlt⟩
    rw [if_pos hlt]
    by_cases hrun : 3 ≤ runLoop 3 b (b :: src) 0
    · have hstart := (startsRun_iff b src).mpr hrun
      exact ⟨0, if_pos hrun, zero_le _, hle, .inr (.inr hstart), fun h => absurd hstart h⟩
    · obtain ⟨n, hn, hlen, hmax, hwhy, -⟩ := litLoop_spec src (litLen + 1) hlt
      refine ⟨n + 1, ?_, succ_le_succ hlen, by omega, ?_, fun _ _ _ => succ_pos n⟩
      · rw [if_neg hrun, hn]
        omega
      · rw [drop_succ_cons, length_cons]
        rcases hwhy with h | h | h
        · exact .inl (by omega)
        · exact .inr (.inl (by omega))
        · exact .inr (.inr h)

lemma litLength_spec {src : List UInt8} (hne : src ≠ []) (hstart : ¬ StartsRun src) :
    litLength src ≤ src.length ∧ litLength src ≤ 128 ∧
      (litLength src = src.length ∨ litLength src = 128 ∨ StartsRun (src.drop (litLength src))) := by
  obtain ⟨n, hn, hlen, hmax, hwhy, hpos⟩ := litLoop_spec src 0 (zero_le _)
  have hpos := hpos hstart hne (by decide)
  rw [zero_add] at hn hmax hwhy
  have heq : litLength src = n := by
    rw [litLength, hn, if_neg (pos_iff_ne_zero.mp hpos)]
  rw [heq]
  exact ⟨hlen, hmax, hwhy⟩

/-! ### The tokens -/

lemma rleLoop_tokens (src : List UInt8) :
    ∃ ts : List Token, (∀ t ∈ ts, t.Valid) ∧ encode ts = rleLoop src ∧ expand ts = src := by
  fun_induction rleLoop src with
  | case1 => exact ⟨[], fun t ht => absurd ht not_mem_nil, rfl, rfl⟩
  | case2 cur rest hrun ih =>
    obtain ⟨ts, hvalid, henc, hexp⟩ := ih
    obtain ⟨n, hn, htake, hlen, hle⟩ := runLoop_spec 128 cur rest 1
    have hmax := hle (by decide)
    rw [hn] at henc hexp ⊢
    refine ⟨.run (1 + n) cur :: ts, ?_, ?_, ?_⟩
    · rintro t (_ | ⟨_, ht⟩)
      · exact ⟨lt_of_lt_of_le one_pos (le_add_right 1 n), hmax⟩
      · exact hvalid t ht
    · rw [encode_cons, henc]
      rfl
    · rw [expand_cons, hexp, Token.expand, add_comm 1 n, replicate_succ, drop_succ_cons,
        cons_append, ← htake, take_append_drop]
  | case3 cur rest hrun ih =>
    obtain ⟨ts, hvalid, henc, hexp⟩ := ih
    obtain ⟨hlen, hmax, -⟩ := litLength_spec (cons_ne_nil cur rest) hrun
    have htake : ((cur :: rest).take (litLength (cur :: rest))).length = litLength (cur :: rest) :=
      length_take_of_le hlen
    refine ⟨.literal ((cur :: rest).take (litLength (cur :: rest))) :: ts, ?_, ?_, ?_⟩
    · rintro t (_ | ⟨_, ht⟩)
      · rw [Token.Valid, Token.count, htake]
        exact ⟨litLength_pos _, hmax⟩
      · exact hvalid t ht
    · rw [encode_cons, henc, Token.encode, htake]
      rfl
    · rw [expand_cons, hexp, Token.expand, take_append_drop]

lemma length_rleLoop_le (src : List UInt8) : (rleLoop src).length ≤ src.length + src.length / 128 + 1 ∧
      (StartsRun src → (rleLoop src).length ≤ src.length + src.length / 128) := by
  fun_induction rleLoop src with
  | case1 => exact ⟨zero_le _, fun h => h.elim⟩
  | case2 cur rest hrun ih =>
    -- three bytes or more become two
    obtain ⟨n, hn, -, hlen, -⟩ := runLoop_spec 128 cur rest 1
    rw [hn] at hrun ih ⊢
    have hlen' : (cur :: rest).length = rest.length + 1 := length_cons
    have hrest := ih.1
    rw [length_drop] at hrest
    have hall : (rleLoop ((cur :: rest).drop (1 + n))).length + 1 + 1 ≤
        (cur :: rest).length + (cur :: rest).length / 128 := by omega
    exact ⟨hall.trans (le_succ _), fun _ => hall⟩
  | case3 cur rest hrun ih =>
    obtain ⟨hlen, hmax, hwhy⟩ := litLength_spec (cons_ne_nil cur rest) hrun
    have htake : ((cur :: rest).take (litLength (cur :: rest))).length = litLength (cur :: rest) :=
      length_take_of_le hlen
    refine ⟨?_, fun h => absurd h hrun⟩
    rw [length_cons, length_append, htake]
    obtain ⟨hany, hstart⟩ := ih
    rw [length_drop] at hany hstart
    rcases hwhy with hend | hfull | hnext
    · -- nothing is left
      have hnil : rleLoop ((cur :: rest).drop (litLength (cur :: rest))) = [] := by
        rw [hend, drop_length, rleLoop]
      rw [hnil, length_nil, hend]
      omega
    · rw [hfull] at hany ⊢
      omega
    · have hsaved := hstart hnext
      omega

lemma length_rleLoop_pos {src : List UInt8} (h : src ≠ []) : 0 < (rleLoop src).length := by
  fun_cases rleLoop src with
  | case1 => exact absurd rfl h
  | case2 cur rest _ => exact succ_pos _
  | case3 cur rest _ => exact succ_pos _

/-- The vector of `rle_compress` is large enough, and what it holds are tokens for the source. -/
theorem rleCompress_eq (src : List UInt8) : rleCompress src = some (rleLoop src) := by
  unfold rleCompress
  have hle := (length_rleLoop_le src).1
  rw [if_pos (by omega)]

end OnyxKernel.Elf2onx

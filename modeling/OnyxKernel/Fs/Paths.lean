import OnyxKernel.Fs.Directory

/-!
# Paths

`lookup` takes a path apart into its components, the parts between slashes that are not empty, and follows
them from the root directory on.  `create`, `unlink` and `rename` split a path at its last slash instead.
Both give the same components.

`Fs.walk` follows a list of components and `Fs.route` lists the directory entries on the way.
-/

namespace OnyxKernel.Onyxfs

open ByteMemory List KResult Fs

variable {s t : Fs} {path name : List UInt8} {dir ino : ℕ} {b : Block}

/-! ### Components -/

/-- The parts of a path between slashes that are not empty. -/
def components (path : List UInt8) : List (List UInt8) := (path.splitOnP (· == slash)).filter (· != [])

@[simp] lemma components_nil : components [] = [] := rfl

lemma components_append (l r : List UInt8) : components (l ++ slash :: r) = components l ++ components r := by
  have hsplit := splitOnP_append_cons (p := (· == slash)) l r (beq_self_eq_true slash)
  rw [components, hsplit, filter_append]
  rfl

lemma components_slash (r : List UInt8) : components (slash :: r) = components r :=
  components_append [] r

lemma components_of_notMem (h : slash ∉ name) (hne : name ≠ []) : components name = [name] := by
  have hsplit : name.splitOnP (· == slash) = [name] :=
    splitOnP_eq_singleton fun c hc => beq_eq_false_iff_ne.mpr (ne_of_mem_of_not_mem hc h)
  rw [components, hsplit]
  simp [hne]

lemma components_dropWhile (path : List UInt8) : components (path.dropWhile (· == slash)) = components path := by
  induction path with
  | nil => rfl
  | cons c path ih =>
    by_cases hc : c = slash
    · subst hc
      rw [dropWhile_cons_of_pos (by simp), ih, components_slash]
    · rw [dropWhile_cons_of_neg (by simp [hc])]

lemma slash_notMem_takeWhile (l : List UInt8) : slash ∉ l.takeWhile (· != slash) := by
  intro hmem
  have hall := all_takeWhile (p := (· != slash)) (l := l)
  have hne := all_eq_true.mp hall slash hmem
  simp at hne

lemma dropWhile_eq_cons {l rest : List UInt8} {c : UInt8} (h : l.dropWhile (· != slash) = c :: rest) : c = slash := by
  have hhead := head?_dropWhile_not (· != slash) l
  rw [h] at hhead
  simpa using hhead

lemma components_eq (path : List UInt8) : components path =
      let remaining := path.dropWhile (· == slash)
      let component := remaining.takeWhile (· != slash)
      if component = [] then []
      else component :: match remaining.dropWhile (· != slash) with
        | [] => []
        | _ :: rest => components rest := by
  rw [← components_dropWhile]
  dsimp only
  obtain ⟨remaining, hrem⟩ : ∃ remaining, remaining = path.dropWhile (· == slash) := ⟨_, rfl⟩
  have hhead : ∀ c ∈ remaining.head?, c ≠ slash := by
    intro c hc
    rw [hrem] at hc
    have := head?_dropWhile_not (· == slash) path
    rw [hc] at this
    simpa using this
  rw [← hrem]
  split
  · rename_i hnil
    cases remaining with
    | nil => rfl
    | cons c rest =>
      have hc : c ≠ slash := hhead c rfl
      simp [hc] at hnil
  · rename_i hne
    have hcut := takeWhile_append_dropWhile (p := (· != slash)) (l := remaining)
    have hnot := slash_notMem_takeWhile remaining
    cases hrest : remaining.dropWhile (· != slash) with
    | nil =>
      rw [hrest, append_nil] at hcut
      rw [hcut] at hnot hne ⊢
      exact components_of_notMem hnot hne
    | cons c rest =>
      obtain rfl := dropWhile_eq_cons hrest
      rw [hrest] at hcut
      conv_lhs => rw [← hcut]
      rw [components_append, components_of_notMem hnot hne]
      rfl

lemma components_splitPath (trimmed : List UInt8) (hne : (splitPath trimmed).2 ≠ []) :
    components trimmed = components (splitPath trimmed).1 ++ [(splitPath trimmed).2] := by
  have hname : slash ∉ (splitPath trimmed).2 := by
    show slash ∉ (trimmed.reverse.takeWhile (· != slash)).reverse
    rw [mem_reverse]
    exact slash_notMem_takeWhile _
  have hcut := takeWhile_append_dropWhile (p := (· != slash)) (l := trimmed.reverse)
  have hsplit : trimmed = (trimmed.reverse.dropWhile (· != slash)).reverse ++ (splitPath trimmed).2 := by
    conv_lhs => rw [← reverse_reverse trimmed, ← hcut, reverse_append]
    rfl
  have hdir : (splitPath trimmed).1 = (trimmed.reverse.dropWhile (· != slash)).tail.reverse := rfl
  cases hrest : trimmed.reverse.dropWhile (· != slash) with
  | nil =>
    rw [hrest] at hsplit hdir
    rw [hdir, tail_nil, reverse_nil, components_nil, nil_append]
    conv_lhs => rw [hsplit, reverse_nil, nil_append]
    exact components_of_notMem hname hne
  | cons c rest =>
    obtain rfl := dropWhile_eq_cons hrest
    rw [hrest] at hsplit hdir
    rw [hdir, tail_cons]
    conv_lhs => rw [hsplit, reverse_cons, append_assoc, singleton_append]
    rw [components_append, components_of_notMem hname hne]

/-! ### Walks -/

/-- Follow components from a directory on. -/
def Fs.walk (s : Fs) : ℕ → List (List UInt8) → Except Errno ℕ
  | cur, [] => .ok cur
  | cur, c :: cs => lookupIno cur c s >>= fun ino => s.walk ino cs

/-- The directory entries that a walk looks up. -/
def Fs.route (s : Fs) : ℕ → List (List UInt8) → List (ℕ × List UInt8)
  | _, [] => []
  | cur, c :: cs => (cur, c) :: match lookupIno cur c s with
    | .ok ino => s.route ino cs
    | .error _ => []

@[simp] lemma Fs.walk_nil (cur : ℕ) : s.walk cur [] = .ok cur := rfl

lemma Fs.walk_cons (cur : ℕ) (c : List UInt8) (cs : List (List UInt8)) :
    s.walk cur (c :: cs) = lookupIno cur c s >>= fun ino => s.walk ino cs := rfl

lemma Fs.walk_append (cur : ℕ) (cs cs' : List (List UInt8)) :
    s.walk cur (cs ++ cs') = s.walk cur cs >>= fun ino => s.walk ino cs' := by
  induction cs generalizing cur with
  | nil => rfl
  | cons c cs ih =>
    rw [cons_append, walk_cons, walk_cons]
    cases lookupIno cur c s with
    | error e => rfl
    | ok ino => exact ih ino

lemma Fs.walk_congr {cur : ℕ} {cs : List (List UInt8)}
    (h : ∀ e ∈ s.route cur cs, lookupIno e.1 e.2 t = lookupIno e.1 e.2 s) : t.walk cur cs = s.walk cur cs := by
  induction cs generalizing cur with
  | nil => rfl
  | cons c cs ih =>
    have hfirst : lookupIno cur c t = lookupIno cur c s := h (cur, c) mem_cons_self
    rw [walk_cons, walk_cons, hfirst]
    cases hlook : lookupIno cur c s with
    | error e => rfl
    | ok ino =>
      refine ih fun e he => h e ?_
      rw [route, hlook]
      exact mem_cons_of_mem _ he

@[simp] lemma lookupIno_withBuf (dir : ℕ) (name : List UInt8) (b : Block) :
    lookupIno dir name (s.withBuf b) = lookupIno dir name s := by
  rfl

@[simp] lemma Fs.walk_withBuf (b : Block) (cur : ℕ) (cs : List (List UInt8)) :
    (s.withBuf b).walk cur cs = s.walk cur cs :=
  walk_congr fun e _ => lookupIno_withBuf e.1 e.2 b

lemma lookupLoop_eq (fuel : ℕ) (path : List UInt8) (cur : ℕ) (hfuel : path.length < fuel) :
    ∃ b, lookupLoop fuel path cur s = match s.walk cur (components path) with
      | .ok ino => .ok ino (s.withBuf b)
      | .error e => .error e (s.withBuf b) := by
  induction fuel generalizing path cur s with
  | zero => omega
  | succ fuel ih =>
    rw [components_eq]
    unfold lookupLoop
    dsimp only
    split
    · exact ⟨s.buf, rfl⟩
    · rw [walk_cons]
      have hread := ReadOnly.lookupIn cur ((path.dropWhile (· == slash)).takeWhile (· != slash))
      cases hlook : lookupIn cur ((path.dropWhile (· == slash)).takeWhile (· != slash)) s with
      | error e u =>
        obtain ⟨b, rfl⟩ := hread.error_eq hlook
        refine ⟨b, ?_⟩
        rw [bind_of_error hlook, lookupIno, hlook]
        rfl
      | ok st u =>
        obtain ⟨b, rfl⟩ := hread.eq_withBuf hlook
        rw [bind_of_ok hlook, lookupIno, hlook]
        cases hrest : (path.dropWhile (· == slash)).dropWhile (· != slash) with
        | nil => exact ⟨b, rfl⟩
        | cons c rest =>
          have hlen : rest.length < fuel := by
            have h1 := (dropWhile_suffix (· != slash) (l := path.dropWhile (· == slash))).length_le
            have h2 := (dropWhile_suffix (· == slash) (l := path)).length_le
            rw [hrest, length_cons] at h1
            omega
          obtain ⟨b', hb'⟩ := ih (s := s.withBuf b) rest st.ino hlen
          rw [walk_withBuf, withBuf_withBuf] at hb'
          exact ⟨b', hb'⟩

lemma lookup_eq (path : List UInt8) (s : Fs) :
    ∃ b, (∃ st, lookup path s = .ok st (s.withBuf b) ∧ s.walk onyfsRootIno (components path) = .ok st.ino) ∨
      ∃ e, lookup path s = .error e (s.withBuf b) ∧ s.walk onyfsRootIno (components path) = .error e := by
  obtain ⟨b, hb⟩ := lookupLoop_eq (s := s) (path.length + 1) path onyfsRootIno (Nat.lt_succ_self _)
  cases hwalk : s.walk onyfsRootIno (components path) with
  | error e =>
    rw [hwalk] at hb
    exact ⟨b, .inr ⟨e, bind_of_error hb, rfl⟩⟩
  | ok ino =>
    rw [hwalk] at hb
    obtain ⟨st, hst, hino⟩ : ∃ st, stat ino (s.withBuf b) = .ok st (s.withBuf (s.disk (s.inodeBlock ino))) ∧
        st.ino = ino := by
      rw [stat, bind_of_ok (readInode_eq ino _)]
      exact ⟨_, rfl, rfl⟩
    refine ⟨s.disk (s.inodeBlock ino), .inl ⟨st, ?_, by rw [hino]⟩⟩
    rw [lookup, bind_of_ok hb, hst]

lemma parentIno_eq (path : List UInt8) (s : Fs) :
    ∃ b, parentIno path s = match s.walk onyfsRootIno (components path) with
      | .ok ino => .ok ino (s.withBuf b)
      | .error e => .error e (s.withBuf b) := by
  unfold parentIno
  split
  · rename_i hnil
    subst hnil
    exact ⟨s.buf, rfl⟩
  · obtain ⟨b, ⟨st, hok, hwalk⟩ | ⟨e, herr, hwalk⟩⟩ := lookup_eq path s
    · refine ⟨b, ?_⟩
      rw [hwalk, bind_of_ok hok]
      rfl
    · refine ⟨b, ?_⟩
      rw [hwalk, bind_of_error herr]

end OnyxKernel.Onyxfs

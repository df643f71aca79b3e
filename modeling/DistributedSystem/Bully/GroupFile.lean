import DistributedSystem.Bully.Divisors

/-!
# The group list file

`readGroupListFile` of `node.c`: a loop around `fscanf` with the format `%s %ld`, which fills an
array of `MAX_NODES` entries and checks neither the length of a name nor the number of entries
nor whether there was a number. What is read is what the text lists, as long as it fits.
-/

namespace DistributedSystem.Bully

open DistributedSystem.Library
open Library.Numeral

namespace GroupFile

/-! ## Scanning -/

/-- What one call of `fscanf` reads; without a number, `%ld` assigns nothing. -/
structure Entry where
  hostname : List UInt8
  portno : Option ℤ
  deriving DecidableEq

/-- The nearest `long`. -/
def toLong (n : ℤ) : ℤ := max (-2 ^ 63) (min n (2 ^ 63 - 1))

/-- `%ld`: the number and what is left. A sign is gone even when no digit follows it. -/
def scanLong (s : List UInt8) : Option ℤ × List UInt8 :=
  let (negative, t) := splitSign (s.dropWhile isspace)
  let ds := t.takeWhile isdigit
  (if ds = [] then none else some (toLong (if negative then -(decimal ds : ℤ) else decimal ds)),
    t.dropWhile isdigit)

/-- `fscanf(fp, "%s %ld", ...)`, where `none` is the end of the file before a name. -/
def fscanf (s : List UInt8) : Option (Entry × List UInt8) :=
  let s := s.dropWhile isspace
  if s = [] then none
  else
    let (portno, rest) := scanLong (s.dropWhile fun b => !isspace b)
    some (⟨s.takeWhile fun b => !isspace b, portno⟩, rest)

/-- The entries that are read with at most so many calls. -/
def entriesUpTo : ℕ → List UInt8 → List Entry
  | 0, _ => []
  | fuel + 1, s =>
      match fscanf s with
      | none => []
      | some (e, s) => e :: entriesUpTo fuel s

/-- The entries of a file. -/
def entries (s : List UInt8) : List Entry := entriesUpTo s.length s

/-! ## Storing -/

/-- `struct groupMem` as it lies in memory. -/
structure GroupMemory where
  hostname : Fin 32 → UInt8
  portno : ℕ

/-- An entry that is read over `old`: `%s` ends the name with a NUL, and the number becomes an
    `unsigned long`. -/
def stored (old : GroupMemory) (e : Entry) : GroupMemory :=
  ⟨CString.put old.hostname e.hostname, (e.portno.map fun n => (n % 2 ^ 64).toNat).getD old.portno⟩

/-- The writes of one call, unless they go out of the array. -/
def store (groupMems : Fin maxNodes → GroupMemory) (numOfMembers : ℕ) (e : Entry) :
    Option (Fin maxNodes → GroupMemory) :=
  if h : numOfMembers < maxNodes ∧ e.hostname.length < 32 then
    some (Function.update groupMems ⟨numOfMembers, h.1⟩ (stored (groupMems ⟨numOfMembers, h.1⟩) e))
  else none

/-- The loop of `readGroupListFile` over what is scanned. -/
def storeAll (groupMems : Fin maxNodes → GroupMemory) : ℕ → List Entry →
    Option (ℕ × (Fin maxNodes → GroupMemory))
  | numOfMembers, [] => some (numOfMembers, groupMems)
  | numOfMembers, e :: es =>
      match store groupMems numOfMembers e with
      | none => none
      | some groupMems => storeAll groupMems (numOfMembers + 1) es

/-- `readGroupListFile` with a file that can be opened: `numOfMembers` and the array, or `none`
    when it writes out of the array. -/
def readGroupListFile (text : List UInt8) (groupMems : Fin maxNodes → GroupMemory) :
    Option (ℕ × (Fin maxNodes → GroupMemory)) := storeAll groupMems 0 (entries text)

/-- The group list that the node goes on with. -/
def groupList (r : ℕ × (Fin maxNodes → GroupMemory)) : List GroupMem :=
  ((List.ofFn r.2).take r.1).map fun m =>
    ⟨String.ofList ((CString.arrayString m.hostname).map fun b => Char.ofNat b.toNat), m.portno⟩

/-! ## The format -/

/-- The text lists the members: a name, blanks and a number for each, and blanks anywhere else.
    Behind a number anything may follow that is no digit. -/
inductive Lists : List (List UInt8 × ℤ) → List UInt8 → Prop
  | nil {blanks : List UInt8} (hblanks : ∀ b ∈ blanks, isspace b = true) : Lists [] blanks
  | cons {ms : List (List UInt8 × ℤ)} {blanks host between sign ds rest : List UInt8}
      (hblanks : ∀ b ∈ blanks, isspace b = true) (hne : host ≠ [])
      (hhost : ∀ b ∈ host, isspace b = false) (hbetween : ∀ b ∈ between, isspace b = true)
      (hsep : between ≠ []) (hsign : sign ∈ [[], [43], [45]]) (hds : ds ≠ [])
      (hdigits : ∀ b ∈ ds, isdigit b = true) (hend : ∀ b ∈ rest.head?, isdigit b = false)
      (hrest : Lists ms rest) :
      Lists ((host, if sign = [45] then -(decimal ds : ℤ) else decimal ds) :: ms)
        (blanks ++ (host ++ (between ++ (sign ++ (ds ++ rest)))))

variable {s r text : List UInt8} {e : Entry} {ms : List (List UInt8 × ℤ)} {fuel : ℕ}

/-! ### The loop ends -/

theorem splitSign_length_le (s : List UInt8) : (splitSign s).2.length ≤ s.length := by
  unfold splitSign
  split
  · exact Nat.le_refl 0
  · split
    · exact Nat.le_succ _
    · split
      · exact Nat.le_succ _
      · exact Nat.le_refl _

theorem scanLong_length_le (s : List UInt8) : (scanLong s).2.length ≤ s.length :=
  ((List.dropWhile_sublist _).length_le.trans (splitSign_length_le _)).trans
    (List.dropWhile_sublist _).length_le

/-- What one call has read stands at the front of the text. -/
theorem exists_of_fscanf (h : fscanf s = some (e, r)) :
    ∃ blanks tail, s = blanks ++ (e.hostname ++ tail) ∧ (∀ b ∈ blanks, isspace b = true) ∧
      e.hostname ≠ [] ∧ (∀ b ∈ e.hostname, isspace b = false) ∧ (∀ b ∈ tail.head?, isspace b = true) ∧
        scanLong tail = (e.portno, r) := by
  unfold fscanf at h
  dsimp only at h
  split at h
  · exact absurd h (by simp)
  · rename_i hne
    obtain ⟨rfl, rfl⟩ := Prod.mk.inj (Option.some.inj h)
    refine ⟨s.takeWhile isspace, (s.dropWhile isspace).dropWhile fun b => !isspace b, ?_,
      fun b hb => List.mem_takeWhile_imp hb, ?_, fun b hb => ?_, fun b hb => ?_, rfl⟩
    · rw [List.takeWhile_append_dropWhile, List.takeWhile_append_dropWhile]
    · obtain ⟨b, t, hb⟩ := List.exists_cons_of_ne_nil hne
      have hhead := List.head?_dropWhile_not isspace s
      rw [hb] at hhead ⊢
      simp only [List.head?_cons] at hhead
      rw [List.takeWhile_cons_of_pos (by simpa using hhead)]
      exact List.cons_ne_nil _ _
    · simpa using List.mem_takeWhile_imp hb
    · have hhead := List.head?_dropWhile_not (fun b => !isspace b) (s.dropWhile isspace)
      rw [Option.mem_def.mp hb] at hhead
      simpa using hhead

/-- Every call takes at least a name from the file. -/
theorem length_lt_of_fscanf (h : fscanf s = some (e, r)) : r.length < s.length := by
  obtain ⟨blanks, tail, rfl, -, hne, -, -, hscan⟩ := exists_of_fscanf h
  have hpos := List.length_pos_iff.mpr hne
  have hdrop : r.length ≤ tail.length := by
    have hle := scanLong_length_le tail
    rwa [hscan] at hle
  simp only [List.length_append]
  omega

/-- Calls enough for the text read all of it. -/
theorem entriesUpTo_eq (h : s.length ≤ fuel) : entriesUpTo fuel s = entries s := by
  induction fuel using Nat.strong_induction_on generalizing s with
  | _ fuel ih =>
    cases fuel with
    | zero =>
        obtain rfl := List.length_eq_zero_iff.mp (Nat.le_zero.mp h)
        rfl
    | succ fuel =>
        unfold entries
        cases hlen : s.length with
        | zero =>
            obtain rfl := List.length_eq_zero_iff.mp hlen
            rfl
        | succ n =>
            rw [entriesUpTo, entriesUpTo]
            cases hscan : fscanf s with
            | none => rfl
            | some x =>
                have hlt := length_lt_of_fscanf hscan
                dsimp only
                rw [ih fuel (by omega) (by omega), ih n (by omega) (by omega)]

theorem entries_of_none (h : fscanf s = none) : entries s = [] := by
  rw [← entriesUpTo_eq (Nat.le_succ s.length), entriesUpTo, h]

theorem entries_of_some (h : fscanf s = some (e, r)) : entries s = e :: entries r := by
  have hlt := length_lt_of_fscanf h
  rw [← entriesUpTo_eq (Nat.le_succ s.length), entriesUpTo, h]
  exact congrArg (e :: ·) (entriesUpTo_eq hlt.le)

/-! ### The format is read, and nothing else -/

theorem isspace_cons_false {b : UInt8} {sign ds rest t : List UInt8} (hsign : sign ∈ [[], [43], [45]])
    (hds : ds ≠ []) (hdigits : ∀ b ∈ ds, isdigit b = true) (h : sign ++ (ds ++ rest) = b :: t) :
    isspace b = false := by
  obtain ⟨d, ds, rfl⟩ := List.exists_cons_of_ne_nil hds
  simp only [List.mem_cons, List.not_mem_nil, or_false] at hsign
  rcases hsign with rfl | rfl | rfl
  · obtain rfl : d = b := (List.cons.inj h).1
    exact (isspace_of_isdigit (hdigits d List.mem_cons_self)).1
  · obtain rfl : (43 : UInt8) = b := (List.cons.inj h).1
    rfl
  · obtain rfl : (45 : UInt8) = b := (List.cons.inj h).1
    rfl

/-- A number behind blanks is read. -/
theorem scanLong_append {between sign ds rest : List UInt8} (hbetween : ∀ b ∈ between, isspace b = true)
    (hsign : sign ∈ [[], [43], [45]]) (hds : ds ≠ []) (hdigits : ∀ b ∈ ds, isdigit b = true)
    (hend : ∀ b ∈ rest.head?, isdigit b = false) :
    scanLong (between ++ (sign ++ (ds ++ rest))) =
      (some (toLong (if sign = [45] then -(decimal ds : ℤ) else decimal ds)), rest) := by
  have htake : (ds ++ rest).takeWhile isdigit = ds := takeWhile_append_of_head? hdigits hend
  have hdrop : (ds ++ rest).dropWhile isdigit = rest := dropWhile_append_of_head? hdigits hend
  simp only [scanLong, List.dropWhile_append_of_pos hbetween, splitSign_append hsign hds hdigits, htake,
    hdrop, if_neg hds, decide_eq_true_eq]

/-- What was taken off as a sign. -/
theorem splitSign_eq (s : List UInt8) :
    ∃ sign ∈ ([[], [43], [45]] : List (List UInt8)), s = sign ++ (splitSign s).2 ∧
      (splitSign s).1 = decide (sign = [45]) := by
  cases s with
  | nil => exact ⟨[], by simp, rfl, rfl⟩
  | cons b t =>
      by_cases hminus : b = 45
      · exact ⟨[45], by simp, by simp [splitSign, hminus], by simp [splitSign, hminus]⟩
      by_cases hplus : b = 43
      · exact ⟨[43], by simp, by simp [splitSign, hplus], by simp [splitSign, hplus]⟩
      · exact ⟨[], by simp, by simp [splitSign, hminus, hplus], by simp [splitSign, hminus, hplus]⟩

/-- What is read as a number is one. -/
theorem exists_of_scanLong {n : ℤ} (h : scanLong s = (some n, r)) :
    ∃ between sign ds, s = between ++ (sign ++ (ds ++ r)) ∧ (∀ b ∈ between, isspace b = true) ∧
      sign ∈ ([[], [43], [45]] : List (List UInt8)) ∧ ds ≠ [] ∧ (∀ b ∈ ds, isdigit b = true) ∧
        ∀ b ∈ r.head?, isdigit b = false := by
  obtain ⟨sign, hsign, hsplit, -⟩ := splitSign_eq (s.dropWhile isspace)
  unfold scanLong at h
  dsimp only at h
  obtain ⟨hnumber, rfl⟩ := Prod.mk.inj h
  generalize (splitSign (s.dropWhile isspace)).2 = t at hsplit hnumber
  have hds : t.takeWhile isdigit ≠ [] := by
    intro hnone
    rw [if_pos hnone] at hnumber
    exact absurd hnumber (by simp)
  refine ⟨s.takeWhile isspace, sign, t.takeWhile isdigit, ?_, fun b hb => List.mem_takeWhile_imp hb,
    hsign, hds, fun b hb => List.mem_takeWhile_imp hb, fun b hb => ?_⟩
  · rw [List.takeWhile_append_dropWhile, ← hsplit, List.takeWhile_append_dropWhile]
  · have hhead := List.head?_dropWhile_not isdigit t
    rw [Option.mem_def.mp hb] at hhead
    simpa using hhead

/-- The first call on a text of the format reads the first member. -/
theorem fscanf_append {blanks host between sign ds rest : List UInt8}
    (hblanks : ∀ b ∈ blanks, isspace b = true) (hne : host ≠ [])
    (hhost : ∀ b ∈ host, isspace b = false) (hbetween : ∀ b ∈ between, isspace b = true)
    (hsep : between ≠ []) (hsign : sign ∈ [[], [43], [45]]) (hds : ds ≠ [])
    (hdigits : ∀ b ∈ ds, isdigit b = true) (hend : ∀ b ∈ rest.head?, isdigit b = false) :
    fscanf (blanks ++ (host ++ (between ++ (sign ++ (ds ++ rest))))) =
      some (⟨host, some (toLong (if sign = [45] then -(decimal ds : ℤ) else decimal ds))⟩, rest) := by
  generalize htail : between ++ (sign ++ (ds ++ rest)) = tail
  have htailhead : ∀ b ∈ tail.head?, (!isspace b) = false := by
    obtain ⟨b, t, rfl⟩ := List.exists_cons_of_ne_nil hsep
    intro b' hb'
    rw [← htail] at hb'
    obtain rfl : b = b' := Option.some.inj hb'
    simp [hbetween b List.mem_cons_self]
  have hhosthead : ∀ b ∈ (host ++ tail).head?, isspace b = false := by
    obtain ⟨b, t, rfl⟩ := List.exists_cons_of_ne_nil hne
    intro b' hb'
    obtain rfl : b = b' := Option.some.inj hb'
    exact hhost b List.mem_cons_self
  have hskip : (blanks ++ (host ++ tail)).dropWhile isspace = host ++ tail :=
    dropWhile_append_of_head? hblanks hhosthead
  have hnot : ∀ b ∈ host, (!isspace b) = true := fun b hb => by simp [hhost b hb]
  have htake : (host ++ tail).takeWhile (fun b => !isspace b) = host :=
    takeWhile_append_of_head? hnot htailhead
  have hdrop : (host ++ tail).dropWhile (fun b => !isspace b) = tail :=
    dropWhile_append_of_head? hnot htailhead
  have hscan := scanLong_append hbetween hsign hds hdigits hend
  rw [htail] at hscan
  simp only [fscanf, hskip, htake, hdrop, hscan, List.append_eq_nil_iff, hne, false_and, if_false]

/-- What `%ld` makes of a member. -/
def Entry.ofMember (m : List UInt8 × ℤ) : Entry := ⟨m.1, some (toLong m.2)⟩

/-- A text of the format is read as what it lists. -/
theorem Lists.entries_eq (h : Lists ms s) : entries s = ms.map Entry.ofMember := by
  induction h with
  | nil hblanks =>
      refine entries_of_none ?_
      rw [fscanf, List.dropWhile_eq_nil_iff.mpr hblanks]
      rfl
  | cons hblanks hne hhost hbetween hsep hsign hds hdigits hend hrest ih =>
      rw [entries_of_some (fscanf_append hblanks hne hhost hbetween hsep hsign hds hdigits hend), ih]
      rfl

/-- A text in which every call finds a number is of the format. -/
theorem exists_lists (h : ∀ e ∈ entries s, e.portno ≠ none) : ∃ ms, Lists ms s := by
  induction hlen : s.length using Nat.strong_induction_on generalizing s with
  | _ len ih =>
    cases hscan : fscanf s with
    | none =>
        -- only blanks are left
        refine ⟨[], .nil ?_⟩
        unfold fscanf at hscan
        dsimp only at hscan
        split at hscan
        · rename_i hnil
          exact List.dropWhile_eq_nil_iff.mp hnil
        · exact absurd hscan (by simp)
    | some x =>
        obtain ⟨e, r⟩ := x
        have hlt := length_lt_of_fscanf hscan
        have hentries := entries_of_some hscan
        obtain ⟨ms, hms⟩ := ih r.length (hlen ▸ hlt) (s := r) (fun e' he' =>
          h e' (hentries ▸ List.mem_cons_of_mem _ he')) rfl
        obtain ⟨n, hn⟩ := Option.ne_none_iff_exists'.mp (h e (hentries ▸ List.mem_cons_self))
        obtain ⟨blanks, tail, rfl, hblanks, hne, hhost, htail, hscan⟩ := exists_of_fscanf hscan
        obtain ⟨between, sign, ds, rfl, hbetween, hsign, hds, hdigits, hend⟩ :=
          exists_of_scanLong (hn ▸ hscan)
        refine ⟨_, .cons hblanks hne hhost hbetween ?_ hsign hds hdigits hend hms⟩
        -- a number right behind the name would be part of it
        rintro rfl
        rw [List.nil_append] at htail
        cases hnumber : sign ++ (ds ++ r) with
        | nil => exact hds (List.append_eq_nil_iff.mp (List.append_eq_nil_iff.mp hnumber).2).1
        | cons b t =>
            have hspace := htail b (by rw [hnumber]; rfl)
            rw [isspace_cons_false hsign hds hdigits hnumber] at hspace
            exact absurd hspace (by simp)

/-! ### What is stored -/

variable {groupMems mem : Fin maxNodes → GroupMemory} {es : List Entry} {k count : ℕ}

/-- The loop stays in the array when the entries fit, and otherwise it does not. -/
theorem isSome_storeAll : (storeAll groupMems k es).isSome ↔
    (es = [] ∨ k + es.length ≤ maxNodes) ∧ ∀ e ∈ es, e.hostname.length < 32 := by
  induction es generalizing groupMems k with
  | nil => simp [storeAll]
  | cons e es ih =>
      rw [storeAll]
      by_cases hfits : k < maxNodes ∧ e.hostname.length < 32
      · rw [store, dif_pos hfits]
        dsimp only
        rw [ih, List.forall_mem_cons]
        simp only [reduceCtorEq, false_or, List.length_cons]
        constructor
        · rintro ⟨hcount, hnames⟩
          refine ⟨?_, hfits.2, hnames⟩
          rcases hcount with rfl | hcount
          · exact hfits.1
          · omega
        · rintro ⟨hcount, -, hnames⟩
          exact ⟨Or.inr (by omega), hnames⟩
      · rw [store, dif_neg hfits]
        simp only [Option.isSome_none, Bool.false_eq_true, reduceCtorEq, false_or, List.length_cons,
          List.forall_mem_cons, false_iff, not_and]
        intro hcount hname
        exact absurd ⟨by omega, hname⟩ hfits

/-- Entry by entry, what the loop leaves in the array. -/
theorem storeAll_spec (h : storeAll groupMems k es = some (count, mem)) :
    count = k + es.length ∧ ∀ i : Fin maxNodes,
      mem i = if k ≤ i then (es[i - k]?.map (stored (groupMems i))).getD (groupMems i)
        else groupMems i := by
  induction es generalizing groupMems k with
  | nil =>
      obtain ⟨rfl, rfl⟩ := Prod.mk.inj (Option.some.inj h)
      simp
  | cons e es ih =>
      rw [storeAll] at h
      by_cases hfits : k < maxNodes ∧ e.hostname.length < 32
      · rw [store, dif_pos hfits] at h
        obtain ⟨hcount, hmem⟩ := ih h
        refine ⟨by rw [hcount, List.length_cons]; omega, fun i => ?_⟩
        rw [hmem]
        rcases Nat.lt_trichotomy i.val k with hlt | heq | hgt
        · have hne : i ≠ ⟨k, hfits.1⟩ := fun hi => absurd (congrArg Fin.val hi) hlt.ne
          rw [if_neg (by omega), if_neg (by omega), Function.update_of_ne hne]
        · obtain rfl : i = ⟨k, hfits.1⟩ := Fin.ext heq
          rw [if_neg (by simp), if_pos (Nat.le_refl _), Function.update_self]
          simp [stored]
        · have hne : i ≠ ⟨k, hfits.1⟩ := fun hi => absurd (congrArg Fin.val hi) hgt.ne'
          have hindex : i.val - k = i.val - (k + 1) + 1 := by omega
          rw [if_pos (Nat.succ_le_of_lt hgt), if_pos hgt.le, Function.update_of_ne hne, hindex,
            List.getElem?_cons_succ]
      · rw [store, dif_neg hfits] at h
        exact absurd h (by simp)

/-- The port that the member has in the array: an `unsigned long`. -/
def portOf (n : ℤ) : ℕ := (toLong n % 2 ^ 64).toNat

/-- The member as an entry of the group list. -/
def memberOf (m : List UInt8 × ℤ) : GroupMem :=
  ⟨String.ofList (m.1.map fun b => Char.ofNat b.toNat), portOf m.2⟩

/-- The members of a text that fits are the group list. -/
theorem groupList_eq (groupMems : Fin maxNodes → GroupMemory) (hms : Lists ms text)
    (h0 : ∀ m ∈ ms, 0 ∉ m.1) (hcount : ms.length ≤ maxNodes)
    (hnames : ∀ m ∈ ms, m.1.length < 32) : ∃ r, readGroupListFile text groupMems = some r ∧
      groupList r = ms.map memberOf := by
  have hsome : (readGroupListFile text groupMems).isSome := by
    rw [readGroupListFile, hms.entries_eq, isSome_storeAll]
    refine ⟨Or.inr (by simpa using hcount), fun e he => ?_⟩
    obtain ⟨m, hm, rfl⟩ := List.mem_map.mp he
    exact hnames m hm
  obtain ⟨⟨count, mem⟩, hread⟩ := Option.isSome_iff_exists.mp hsome
  refine ⟨_, hread, ?_⟩
  rw [readGroupListFile, hms.entries_eq] at hread
  obtain ⟨rfl, hmem⟩ := storeAll_spec hread
  refine List.ext_getElem ?_ fun i hi hi' => ?_
  · simp [groupList, hcount]
  · rw [List.length_map] at hi'
    have hentry : mem ⟨i, by omega⟩ = stored (groupMems ⟨i, by omega⟩) (Entry.ofMember ms[i]) := by
      rw [hmem, if_pos (Nat.zero_le _)]
      simp [List.getElem?_eq_getElem hi']
    have hstring := CString.arrayString_put (groupMems ⟨i, by omega⟩).hostname (h0 _ (List.getElem_mem hi'))
      (hnames _ (List.getElem_mem hi'))
    simp only [groupList, List.getElem_map, List.getElem_take, List.getElem_ofFn, hentry, stored,
      Entry.ofMember, hstring]
    rfl

/-- **The group list file**: the loop stays in its arrays exactly when there are at most
    `MAX_NODES` entries, whose names have at most 31 characters. Every entry gets a number exactly
    when the text is of the format. And then the members of the group are those that are listed,
    whatever stood in the memory, and `main` starts a node exactly for their ports. -/
theorem group_list_file (text : List UInt8) (groupMems : Fin maxNodes → GroupMemory) :
    ((readGroupListFile text groupMems).isSome ↔
        (entries text).length ≤ maxNodes ∧ ∀ e ∈ entries text, e.hostname.length < 32) ∧
      ((∀ e ∈ entries text, e.portno ≠ none) ↔ ∃ ms, Lists ms text) ∧
      ∀ ms, Lists ms text → (∀ m ∈ ms, 0 ∉ m.1) → ms.length ≤ maxNodes → (∀ m ∈ ms, m.1.length < 32) →
        ∃ r, readGroupListFile text groupMems = some r ∧ groupList r = ms.map memberOf ∧
          ∀ (env : Env) (prog port groupListFile logFile timeoutValue AYATime failure : CString),
            env.readGroupListFile groupListFile = some (groupList r) →
            ((main env [prog, port, groupListFile, logFile, timeoutValue, AYATime, failure]).isSome ↔
              (∀ arg ∈ [port, timeoutValue, AYATime], ∃ n, StartsWith arg.bytes n) ∧
                env.fopen logFile = true ∧ ∃ m ∈ ms, (strtoul port.bytes).1 = portOf m.2) := by
  refine ⟨?_, ⟨exists_lists, ?_⟩, fun ms hms h0 hcount hnames => ?_⟩
  · rw [readGroupListFile, isSome_storeAll, Nat.zero_add]
    refine and_congr_left fun _ => or_iff_right_of_imp ?_
    intro hnil
    rw [hnil]
    exact Nat.zero_le _
  · rintro ⟨ms, hms⟩ e he
    rw [hms.entries_eq] at he
    obtain ⟨m, -, rfl⟩ := List.mem_map.mp he
    exact Option.some_ne_none _
  · obtain ⟨r, hread, hlist⟩ := groupList_eq groupMems hms h0 hcount hnames
    refine ⟨r, hread, hlist, fun env prog port groupListFile logFile timeoutValue AYATime failure henv => ?_⟩
    rw [main_isSome_iff, henv, hlist]
    simp [memberOf]

/-- `a 1` and `b 2`, on a line each. -/
def twoMembers : List UInt8 := [97, 32, 49, 10, 98, 32, 50, 10]

theorem group_list_file_two : ∃ r, readGroupListFile twoMembers (fun _ => ⟨fun _ => 255, 7⟩) = some r ∧
    groupList r = [⟨"a", 1⟩, ⟨"b", 2⟩] := by
  have hsecond : Lists [([98], 2)] [10, 98, 32, 50, 10] := by
    refine @Lists.cons [] [10] [98] [32] [] [50] [10] ?_ ?_ ?_ ?_ ?_ ?_ ?_ ?_ ?_ (.nil ?_)
    all_goals decide +kernel
  have hms : Lists [([97], 1), ([98], 2)] twoMembers := by
    refine @Lists.cons _ [] [97] [32] [] [49] [10, 98, 32, 50, 10] ?_ ?_ ?_ ?_ ?_ ?_ ?_ ?_ ?_ hsecond
    all_goals decide +kernel
  obtain ⟨r, hread, hlist, -⟩ := (group_list_file twoMembers fun _ => ⟨fun _ => 255, 7⟩).2.2 _ hms
    (by decide +kernel) (by decide) (by decide +kernel)
  refine ⟨r, hread, hlist.trans ?_⟩
  decide

/-- A sign without a number is lost, and what follows it is taken for a name: `a 1`, `b -x`. -/
example : entries [97, 32, 49, 10, 98, 32, 45, 120] = [⟨[97], some 1⟩, ⟨[98], none⟩, ⟨[120], none⟩] := by
  decide

end GroupFile

end DistributedSystem.Bully

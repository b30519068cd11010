import Xv6.Process.Slot
import Xv6.Vm.Copies

namespace Xv6.Vm

open Xv6.Framework Xv6.Process

/-- What getptable reads of a slot. An int is kept as its word. -/
structure Entry where
  state : ProcState
  pid : UInt32
  parent : Option ProcId
  name : Bytes
  sz : UInt64

abbrev Ptable := ProcId → Entry

def stateNumber : ProcState → UInt32
  | .unused => 0
  | .used => 1
  | .sleeping => 2
  | .runnable => 3
  | .running => 4
  | .zombie => 5

/-- sizeof(struct proc_info): pid, ppid, state and name up to 28, sz from 32 on. -/
def PINFO : Nat := 40

def strLoop (t : Bytes) : Nat → Bytes → Nat → Nat → Bytes
  | 0, a, s, _ => Function.update a s 0
  | n + 1, a, s, i =>
    let a := Function.update a s (t i)
    if t i = 0 then Function.update a (s + 1) 0 else strLoop t n a (s + 1) (i + 1)

def safestrcpy (a : Bytes) (s : Nat) (t : Bytes) (n : Nat) : Bytes :=
  if n = 0 then a else strLoop t (n - 1) a s 0

namespace Ptable

variable (table : Ptable)

def ppid (p : ProcId) : UInt32 :=
  match (table p).parent with
  | some q => (table q).pid
  | none => -1

/-- The body of the loop, for the record at off. -/
def putRecord (p : ProcId) (pi : Bytes) (off : Nat) : Bytes :=
  let pi := pi.setU32 off (table p).pid
  let pi := pi.setU32 (off + 4) (table.ppid p)
  let pi := pi.setU32 (off + 8) (stateNumber (table p).state)
  let pi := safestrcpy pi (off + 12) (table p).name 16
  pi.setU64 (off + 32) (table p).sz

def fillLoop (n : Nat) : List ProcId → Bytes → Nat → Bytes × Nat
  | [], pi, count => (pi, count)
  | p :: ps, pi, count =>
    if count < n then
      if (table p).state ≠ .unused then fillLoop n ps (table.putRecord p pi (PINFO * count)) (count + 1)
      else fillLoop n ps pi count
    else (pi, count)

/-- The process's table, and what is on its stack where pi will be. The array is taken to have room for
what is written to it. -/
def getptable (pagetable : Nat) (stack : Bytes) (n : Int32) (addr : UInt64) : Kernel Nat :=
  if n < 1 then return 0
  else do
    let filled := table.fillLoop n.toInt.toNat (List.finRange NPROC) stack 0
    if ← copyout pagetable addr filled.1 (UInt64.ofNat (filled.2 * PINFO)) then return 1 else return 0

/-- The array of n records, whose size is a size_t, fits the page of the stack beside the frames of the
call, which take `used` bytes of it. -/
def Fits (used : Nat) (n : Int32) : Prop := used + n.toInt * PINFO % 2 ^ 64 ≤ PGSIZE

instance (used : Nat) (n : Int32) : Decidable (Fits used n) := inferInstanceAs (Decidable (_ ≤ _))

def reported (n : Int32) : List ProcId :=
  ((List.finRange NPROC).filter fun p => (table p).state ≠ .unused).take n.toInt.toNat

end Ptable

/-- The characters before the NUL, of at most n from i on. -/
def strLen (t : Bytes) (i : Nat) : Nat → Nat
  | 0 => 0
  | n + 1 => if t i = 0 then 0 else strLen t (i + 1) n + 1

theorem strLen_le (t : Bytes) (i n : Nat) : strLen t i n ≤ n := by
  induction n generalizing i with
  | zero => rfl
  | succ n ih =>
    rw [strLen]
    split
    · omega
    · have := ih (i + 1)
      omega

theorem strLoop_before (t : Bytes) (n : Nat) (a : Bytes) {s i k : Nat} (hk : k < s) :
    strLoop t n a s i k = a k := by
  induction n generalizing a s i with
  | zero => exact Function.update_of_ne (by omega) _ _
  | succ n ih =>
    rw [strLoop]
    split
    · rw [Function.update_of_ne (by omega), Function.update_of_ne (by omega)]
    · rw [ih _ (by omega), Function.update_of_ne (by omega)]

/-- safestrcpy writes the characters, and a zero or, behind a NUL, two. -/
theorem strLoop_apply (t : Bytes) (n : Nat) (a : Bytes) (s i j : Nat) :
    strLoop t n a s i (s + j) =
      if j < strLen t i n then t (i + j)
      else if j ≤ strLen t i n + 1 ∧ j ≤ n then 0 else a (s + j) := by
  induction n generalizing a s i j with
  | zero =>
    rw [strLoop, strLen]
    by_cases hj : j = 0
    · simp [hj]
    · rw [Function.update_of_ne (by omega), if_neg (by omega), if_neg (by omega)]
  | succ n ih =>
    rw [strLoop, strLen]
    by_cases h0 : t i = 0
    · rw [if_pos h0, if_pos h0, if_neg (by omega)]
      by_cases hj : j ≤ 1
      · rw [if_pos (by omega)]
        interval_cases j
        · rw [Function.update_of_ne (by omega), Nat.add_zero, Function.update_self, h0]
        · exact Function.update_self ..
      · rw [Function.update_of_ne (by omega), Function.update_of_ne (by omega), if_neg (by omega)]
    · rw [if_neg h0, if_neg h0]
      cases j with
      | zero =>
        rw [strLoop_before _ _ _ (by omega)]
        exact Function.update_self ..
      | succ j =>
        rw [show s + (j + 1) = s + 1 + j by omega, ih, Function.update_of_ne (by omega)]
        simp only [Nat.add_lt_add_iff_right, Nat.add_le_add_iff_right, Nat.add_assoc,
          Nat.add_comm 1]

theorem safestrcpy_apply (a : Bytes) (s : Nat) (t : Bytes) (k : Nat) :
    safestrcpy a s t 16 k =
      if k < s then a k
      else if k - s < strLen t 0 15 then t (k - s)
      else if k - s ≤ strLen t 0 15 + 1 ∧ k - s ≤ 15 then 0 else a k := by
  rw [safestrcpy, if_neg (by decide)]
  by_cases hk : k < s
  · rw [if_pos hk, strLoop_before _ _ _ hk]
  · obtain ⟨j, rfl⟩ := Nat.exists_eq_add_of_le (Nat.not_lt.mp hk)
    rw [if_neg hk, strLoop_apply, Nat.add_sub_cancel_left, Nat.zero_add]

namespace Ptable

variable (table : Ptable)

/-- The byte of a record at an offset, if the loop writes it. -/
def field (p : ProcId) (off : Nat) : Option UInt8 :=
  if off < 4 then some (Bytes.byteOf (table p).pid.toNat off)
  else if off < 8 then some (Bytes.byteOf (table.ppid p).toNat (off - 4))
  else if off < 12 then some (Bytes.byteOf (stateNumber (table p).state).toNat (off - 8))
  else if off < 28 then
    if off - 12 < strLen (table p).name 0 15 then some ((table p).name (off - 12))
    else if off - 12 ≤ strLen (table p).name 0 15 + 1 then some 0 else none
  else if off < 32 then none
  else some (Bytes.byteOf (table p).sz.toNat (off - 32))

theorem putRecord_outside (p : ProcId) (pi : Bytes) {off k : Nat} (h : k < off ∨ off + PINFO ≤ k) :
    table.putRecord p pi off k = pi k := by
  unfold PINFO at h
  have hstr := strLen_le (table p).name 0 15
  simp only [putRecord, Bytes.setU32, Bytes.setU64, Bytes.copy, safestrcpy_apply]
  split_ifs <;> first | rfl | omega

theorem putRecord_inside (p : ProcId) (pi : Bytes) (off : Nat) {o : Nat} (h : o < PINFO) :
    table.putRecord p pi off (off + o) = (table.field p o).getD (pi (off + o)) := by
  unfold PINFO at h
  have hstr := strLen_le (table p).name 0 15
  simp only [putRecord, Bytes.setU32, Bytes.setU64, Bytes.copy, safestrcpy_apply, field]
  by_cases h32 : 32 ≤ o
  · rw [if_pos (by omega)]
    repeat rw [if_neg (by omega)]
    congr 1
    omega
  rw [if_neg (by omega)]
  by_cases h12 : o < 12
  · rw [if_pos (by omega)]
    split_ifs <;> first | omega | (congr 1; omega)
  · rw [if_neg (by omega), if_neg (show ¬ o < 8 by omega), show off + o - (off + 12) = o - 12 by omega]
    split_ifs <;> first | rfl | omega

/-- The records from count on, for the slots ps. -/
structure Filled (ps : List ProcId) (pi : Bytes) (count : Nat) (pi' : Bytes) : Prop where
  before : ∀ k < PINFO * count, pi' k = pi k
  records : ∀ c p, ps[c]? = some p → ∀ o < PINFO,
    pi' (PINFO * (count + c) + o) = (table.field p o).getD (pi (PINFO * (count + c) + o))

theorem fillLoop_spec (n : Nat) (ps : List ProcId) (pi : Bytes) (count : Nat) :
    Filled table ((ps.filter fun p => (table p).state ≠ .unused).take (n - count)) pi count
        (table.fillLoop n ps pi count).1 ∧
      (table.fillLoop n ps pi count).2 =
        count + ((ps.filter fun p => (table p).state ≠ .unused).take (n - count)).length := by
  induction ps generalizing pi count with
  | nil => exact ⟨⟨fun _ _ => rfl, by simp⟩, by simp [fillLoop]⟩
  | cons p ps ih =>
    rw [fillLoop]
    by_cases hn : count < n
    · rw [if_pos hn]
      by_cases hp : (table p).state ≠ .unused
      · obtain ⟨hf, hcount⟩ := ih (table.putRecord p pi (PINFO * count)) (count + 1)
        rw [if_pos hp, List.filter_cons_of_pos (by simpa using hp),
          show n - count = n - (count + 1) + 1 by omega, List.take_succ_cons]
        refine ⟨⟨fun k hk => ?_, fun c q hc o ho => ?_⟩, ?_⟩
        · rw [hf.before k (by rw [Nat.mul_succ]; omega), putRecord_outside table p pi (.inl hk)]
        · cases c with
          | zero =>
            cases hc
            rw [show count + 0 = count from rfl, hf.before _ (by rw [Nat.mul_succ]; omega)]
            exact putRecord_inside table p pi _ ho
          | succ c =>
            have hrec := hf.records c q hc o ho
            rw [show count + 1 + c = count + (c + 1) by omega] at hrec
            rw [hrec, putRecord_outside table p pi (.inr ?_)]
            rw [Nat.mul_add, Nat.mul_succ]
            omega
        · rw [List.length_cons]
          omega
      · rw [if_neg hp, List.filter_cons_of_neg (by simpa using hp)]
        exact ih pi count
    · rw [if_neg hn, Nat.sub_eq_zero_of_le (by omega)]
      exact ⟨⟨fun _ _ => rfl, by simp⟩, by simp⟩

theorem fits_iff (used : Nat) (n : Int32) :
    Fits used n ↔ 0 ≤ n.toInt ∧ used + n.toInt * PINFO ≤ PGSIZE := by
  have := n.le_toInt
  have := n.toInt_lt
  unfold Fits PINFO PGSIZE
  rcases lt_or_ge n.toInt 0 with h | h
  · rw [Int.emod_eq_add_self_emod, Int.emod_eq_of_lt (by omega) (by omega)]
    omega
  · rw [Int.emod_eq_of_lt (by omega) (by omega)]
    omega

def array (stack : Bytes) (n : Int32) : Bytes :=
  (table.fillLoop n.toInt.toNat (List.finRange NPROC) stack 0).1

variable {r r' : Machine} {root : Page} (stack : Bytes) (n : Int32) (addr : UInt64)

theorem array_spec : Filled table (table.reported n) stack 0 (table.array stack n) :=
  (table.fillLoop_spec n.toInt.toNat (List.finRange NPROC) stack 0).1

theorem getptable_returns (hu : UserTable r root) :
    Returns (table.getptable (root * PGSIZE) stack n addr) r fun ret r' =>
      ret = 0 ∧ (n < 1 ∨ ∃ k < PINFO * (table.reported n).length, ¬ Writable r root (addr.toNat + k)) ∨
        ret = 1 ∧ CopiedOut r root addr.toNat (table.array stack n)
          (PINFO * (table.reported n).length) r' := by
  rw [getptable]
  split
  · exact Returns.pure (.inl ⟨rfl, .inl ‹_›⟩)
  have hcount := (table.fillLoop_spec n.toInt.toNat (List.finRange NPROC) stack 0).2
  rw [Nat.zero_add] at hcount
  have hle : (table.reported n).length ≤ NPROC := by
    exact (List.length_take_le' _ _).trans (List.length_filter_le _ _)
  have hlen : (UInt64.ofNat ((table.fillLoop n.toInt.toNat (List.finRange NPROC) stack 0).2 *
      PINFO)).toNat = PINFO * (table.reported n).length := by
    rw [hcount, UInt64.toNat_ofNat_of_lt', Nat.mul_comm]
    · rfl
    · refine (Nat.mul_le_mul_right PINFO hle).trans_lt ?_
      decide
  have hcopy := copyout_iff (table.array stack n) addr (UInt64.ofNat
    ((table.fillLoop n.toInt.toNat (List.finRange NPROC) stack 0).2 * PINFO)) hu
  rw [hlen] at hcopy
  refine Returns.bind hcopy ?_
  rintro ok r' ⟨-, hok, -, hcopied⟩
  cases ok with
  | true => exact Returns.pure (.inr ⟨rfl, hcopied rfl⟩)
  | false => exact Returns.pure (.inl ⟨rfl, .inr (by simpa using hok)⟩)

/-- A record with all its fields, where the name is what is before the NUL. -/
structure Reports (p : ProcId) (bytes : Bytes) (off : Nat) : Prop where
  pid : bytes.u32 off = (table p).pid
  ppid : bytes.u32 (off + 4) = table.ppid p
  state : bytes.u32 (off + 8) = stateNumber (table p).state
  name : ∀ j < strLen (table p).name 0 15, bytes (off + 12 + j) = (table p).name j
  nul : bytes (off + 12 + strLen (table p).name 0 15) = 0
  sz : bytes.u64 (off + 32) = (table p).sz

theorem reports_of_field {p : ProcId} {bytes : Bytes} {off : Nat}
    (h : ∀ o < PINFO, ∀ b, table.field p o = some b → bytes (off + o) = b) :
    table.Reports p bytes off := by
  have hstr := strLen_le (table p).name 0 15
  unfold PINFO at h
  refine ⟨Bytes.u32_of_bytes fun j hj => ?_, Bytes.u32_of_bytes fun j hj => ?_,
    Bytes.u32_of_bytes fun j hj => ?_, fun j hj => ?_, ?_, Bytes.u64_of_bytes fun j hj => ?_⟩
  · exact h j (by omega) _ (by rw [field, if_pos hj])
  all_goals
    rw [Nat.add_assoc]
    refine h _ (by omega) _ ?_
    rw [field]
    repeat rw [if_neg (by omega)]
  · rw [if_pos (by omega), Nat.add_sub_cancel_left]
  · rw [if_pos (by omega), Nat.add_sub_cancel_left]
  · rw [if_pos (by omega), if_pos (by omega), Nat.add_sub_cancel_left]
  · rw [if_pos (by omega), if_neg (by omega), if_pos (by omega)]
  · rw [Nat.add_sub_cancel_left]

theorem getptable_ok (hu : UserTable r root)
    (h : table.getptable (root * PGSIZE) stack n addr r = .ok (1, r')) :
    CopiedOut r root addr.toNat (table.array stack n) (PINFO * (table.reported n).length) r' := by
  obtain ⟨ret, t, ht, hret⟩ := table.getptable_returns stack n addr hu
  cases h.symm.trans ht
  rcases hret with ⟨h0, -⟩ | ⟨-, hc⟩
  · cases h0
  · exact hc

theorem record_lt {ps : List ProcId} {c o : Nat} {p : ProcId} (hp : ps[c]? = some p)
    (ho : o < PINFO) : PINFO * c + o < PINFO * ps.length := by
  have hc := (List.getElem?_eq_some_iff.mp hp).1
  calc PINFO * c + o < PINFO * (c + 1) := by
        rw [Nat.mul_succ]
        omega
    _ ≤ PINFO * ps.length := Nat.mul_le_mul_left _ hc

/-- The bytes a successful call shows at the user address. -/
theorem copied_field (hc : CopiedOut r root addr.toNat (table.array stack n)
      (PINFO * (table.reported n).length) r') {c : Nat} {p : ProcId}
    (hp : (table.reported n)[c]? = some p) {o : Nat} (ho : o < PINFO) :
    userByte r' root (addr.toNat + (PINFO * c + o)) =
      (table.field p o).getD (stack (PINFO * c + o)) := by
  rw [hc.bytes _ (record_lt hp ho)]
  have := (table.array_spec stack n).records c p hp o ho
  rw [Nat.zero_add] at this
  exact this

/-- getptable reports the table and keeps to its stack just for the n for which there is room left. -/
theorem getptable_reports_iff (hu : UserTable r root) (used : Nat) :
    (Fits used n ∧ Returns (table.getptable (root * PGSIZE) stack n addr) r fun ret r' =>
      ret = 0 ∨ ret = 1 ∧
        (∀ c p, (table.reported n)[c]? = some p →
          table.Reports p (fun k => userByte r' root (addr.toNat + k)) (PINFO * c)) ∧
        ∀ x, (∀ k < PINFO * (table.reported n).length, x ≠ phys r root (addr.toNat + k)) →
          r'.ram x = r.ram x) ↔ 0 ≤ n.toInt ∧ used + n.toInt * PINFO ≤ PGSIZE := by
  rw [← fits_iff, and_iff_left_iff_imp]
  intro _
  refine (table.getptable_returns stack n addr hu).mono ?_
  rintro ret r' (⟨h0, -⟩ | ⟨h1, hc⟩)
  · exact .inl h0
  · refine .inr ⟨h1, fun c p hp => ?_, hc.rest⟩
    refine table.reports_of_field fun o ho b hb => ?_
    rw [table.copied_field stack n addr hc hp ho, hb]
    rfl

def lone : Ptable := fun p => ⟨if p = 0 then .running else .unused, 1, none, fun _ => 0, 4096⟩

theorem getptable_reports_one :
    ∃ r, UserTable r 524288 ∧ Fits 400 1 ∧
      Returns (lone.getptable (524288 * PGSIZE) (fun _ => 7) 1 0) r fun ret r' =>
        ret = 0 ∨ lone.Reports 0 (fun k => userByte r' 524288 k) 0 := by
  obtain ⟨r, hu, -⟩ := exists_userTable
  obtain ⟨hfits, hret⟩ := (lone.getptable_reports_iff (fun _ => 7) 1 0 hu 400).mpr (by decide)
  refine ⟨r, hu, hfits, hret.mono ?_⟩
  rintro ret r' (h0 | ⟨-, hrep, -⟩)
  · exact .inl h0
  · have h := hrep 0 0 (by decide +kernel)
    simp only [UInt64.toNat_zero, Nat.zero_add] at h
    exact .inr h

/-- An array of 103 records is larger than the stack, and one of -1 is too; beside frames of 400 bytes
so is one of 93. -/
theorem getptable_overflows : ¬ Fits 0 103 ∧ ¬ Fits 0 (-1) ∧ ¬ Fits 400 93 := by
  decide

/-- Two tables with the same entries, as far as they are reported. -/
structure Same (table table' : Ptable) : Prop where
  state : ∀ p, (table p).state = (table' p).state
  pid : ∀ p, (table p).pid = (table' p).pid
  ppid : ∀ p, table.ppid p = table'.ppid p
  sz : ∀ p, (table p).sz = (table' p).sz
  name : ∀ p j, (∀ i < j, (table p).name i ≠ 0) → (table p).name j = (table' p).name j

end Ptable

theorem strLen_ne {t : Bytes} {i n j : Nat} (h : j < strLen t i n) : t (i + j) ≠ 0 := by
  induction n generalizing i j with
  | zero => cases h
  | succ n ih =>
    rw [strLen] at h
    split at h
    · cases h
    · cases j with
      | zero => assumption
      | succ j =>
        rw [← Nat.add_assoc, Nat.add_right_comm]
        exact ih (by omega)

theorem strLen_congr {t t' : Bytes} (h : ∀ j, (∀ i < j, t i ≠ 0) → t j = t' j) {i : Nat}
    (hi : ∀ k < i, t k ≠ 0) (n : Nat) : strLen t i n = strLen t' i n := by
  induction n generalizing i with
  | zero => rfl
  | succ n ih =>
    rw [strLen, strLen, ← h i hi]
    split
    · rfl
    · rename_i h0
      rw [ih fun k hk => ?_]
      rcases Nat.lt_succ_iff_lt_or_eq.mp hk with hlt | rfl
      · exact hi k hlt
      · exact h0

namespace Ptable

variable {table table' : Ptable}

theorem Same.reported (h : Same table table') (n : Int32) : table.reported n = table'.reported n := by
  simp only [Ptable.reported, h.state]

theorem Same.field (h : Same table table') (p : ProcId) (o : Nat) :
    table.field p o = table'.field p o := by
  have hlen := strLen_congr (h.name p) (i := 0) (by simp) 15
  unfold Ptable.field
  rw [h.pid, h.ppid, h.state, h.sz, ← hlen]
  split_ifs with h4 h8 h12 h28 hl
  · rfl
  · rfl
  · rfl
  · rw [h.name p _ fun i hi => ?_]
    have := strLen_ne (show i < strLen (table p).name 0 15 by omega)
    rwa [Nat.zero_add] at this
  all_goals rfl

/-- Two successful calls show the same bytes just if the stacks were the same where the loop does not
write: behind the end of a name, and between it and the size. -/
theorem getptable_leaks_iff (hsame : Same table table') {r r' s s' : Machine} {root root' : Page}
    (hr : UserTable r root) (hs : UserTable s root') (stack stack' : Bytes) (n : Int32) (addr : UInt64)
    (h : table.getptable (root * PGSIZE) stack n addr r = .ok (1, r'))
    (h' : table'.getptable (root' * PGSIZE) stack' n addr s = .ok (1, s')) :
    (∀ k < PINFO * (table.reported n).length,
        userByte r' root (addr.toNat + k) = userByte s' root' (addr.toNat + k)) ↔
      ∀ c p, (table.reported n)[c]? = some p → ∀ o < PINFO, table.field p o = none →
        stack (PINFO * c + o) = stack' (PINFO * c + o) := by
  have hbyte : ∀ c p, (table.reported n)[c]? = some p → ∀ o < PINFO,
      userByte r' root (addr.toNat + (PINFO * c + o)) =
          (table.field p o).getD (stack (PINFO * c + o)) ∧
        userByte s' root' (addr.toNat + (PINFO * c + o)) =
          (table.field p o).getD (stack' (PINFO * c + o)) := by
    intro c p hp o ho
    refine ⟨table.copied_field stack n addr (table.getptable_ok stack n addr hr h) hp ho, ?_⟩
    rw [hsame.field]
    exact table'.copied_field stack' n addr (table'.getptable_ok stack' n addr hs h')
      (hsame.reported n ▸ hp) ho
  constructor
  · intro hall c p hp o ho hnone
    obtain ⟨h1, h2⟩ := hbyte c p hp o ho
    have heq := hall _ (record_lt hp ho)
    rw [h1, h2, hnone] at heq
    exact heq
  · intro hstack k hk
    have hc : k / PINFO < (table.reported n).length := Nat.div_lt_of_lt_mul hk
    obtain ⟨h1, h2⟩ := hbyte (k / PINFO) _ (List.getElem?_eq_getElem hc) (k % PINFO)
      (Nat.mod_lt _ (by decide))
    rw [Nat.div_add_mod] at h1 h2
    rw [h1, h2]
    cases hf : table.field (table.reported n)[k / PINFO] (k % PINFO) with
    | some b => rfl
    | none =>
      have := hstack _ _ (List.getElem?_eq_getElem hc) _ (Nat.mod_lt _ (by decide)) hf
      rw [Nat.div_add_mod] at this
      exact this

/-- A call that is successful whatever is on the stack. -/
theorem lone_ok : ∃ r, UserTable r 524288 ∧
    ∀ stack, ∃ r', lone.getptable (524288 * PGSIZE) stack 1 0 r = .ok (1, r') := by
  obtain ⟨r, hu, hw, -⟩ := exists_userTable
  refine ⟨r, hu, fun stack => ?_⟩
  obtain ⟨ret, r', h, hret⟩ := lone.getptable_returns stack 1 0 hu
  rcases hret with ⟨-, h0 | ⟨k, hk, hnot⟩⟩ | ⟨rfl, -⟩
  · exact absurd h0 (by decide)
  · refine absurd ?_ hnot
    rw [UInt64.toNat_zero, Nat.zero_add]
    have hpage : k / PGSIZE = 0 / PGSIZE := by
      unfold PGSIZE
      change k < 40 at hk
      omega
    rwa [Writable, pteOf_page hpage]
  · exact ⟨r', h⟩

theorem getptable_leaks_iff_lone :
    ∃ r r' s', UserTable r 524288 ∧
      lone.getptable (524288 * PGSIZE) (fun _ => 7) 1 0 r = .ok (1, r') ∧
      lone.getptable (524288 * PGSIZE) (fun k => if k < 14 then 0 else 7) 1 0 r = .ok (1, s') ∧
      ∀ k < 40, userByte r' 524288 k = userByte s' 524288 k := by
  obtain ⟨r, hu, hok⟩ := lone_ok
  obtain ⟨r', hr⟩ := hok fun _ => 7
  obtain ⟨s', hs⟩ := hok fun k => if k < 14 then 0 else 7
  refine ⟨r, r', s', hu, hr, hs, ?_⟩
  have h := (getptable_leaks_iff ⟨fun _ => rfl, fun _ => rfl, fun _ => rfl, fun _ => rfl,
    fun _ _ _ => rfl⟩ hu hu _ _ 1 0 hr hs).mpr ?_
  · intro k hk
    have := h k hk
    rwa [UInt64.toNat_zero, Nat.zero_add] at this
  · rintro (_ | c) p hp o ho hnone
    · have hwritten : ∀ o < 14, lone.field 0 o ≠ none := by decide +kernel
      cases hp
      rw [if_neg fun hlt => hwritten o (by omega) hnone]
    · cases hp

/-- What was on the stack is in the padding of the record. -/
theorem getptable_leaks :
    ∃ r r' s', UserTable r 524288 ∧
      lone.getptable (524288 * PGSIZE) (fun _ => 0) 1 0 r = .ok (1, r') ∧
      lone.getptable (524288 * PGSIZE) (fun _ => 7) 1 0 r = .ok (1, s') ∧
      userByte r' 524288 28 = 0 ∧ userByte s' 524288 28 = 7 := by
  obtain ⟨r, hu, hok⟩ := lone_ok
  obtain ⟨r', hr⟩ := hok fun _ => 0
  obtain ⟨s', hs⟩ := hok fun _ => 7
  have hp : (lone.reported 1)[0]? = some 0 := by
    rfl
  have h1 := lone.copied_field _ 1 0 (lone.getptable_ok _ 1 0 hu hr) hp (o := 28) (by decide)
  have h2 := lone.copied_field _ 1 0 (lone.getptable_ok _ 1 0 hu hs) hp (o := 28) (by decide)
  exact ⟨r, r', s', hu, hr, hs, h1, h2⟩

end Ptable

end Xv6.Vm

import AstralOS.Usermode.Syscall

/-!
# What a system call accesses

Rules for the log of the addresses that a system call reaches through its arguments.  A computation is quiet when it adds
nothing to the log, and it grows the log when it takes nothing away.  To show that a call stays below the limit of user
memory, the rules carry the invariant `UserOnly` through it; to show that it reaches an address, it is run on a memory in
which every address is mapped and every byte is the same (`Flat`), so that nothing stops it early.
-/

namespace AstralOS.Syscall

open Memory Fallible List BitVec

/-! ### Ranges -/

def Below (p : BitVec 64) (n : Nat) : Prop := n = 0 ∨ p.toNat + n ≤ 2 ^ 47

instance (p : BitVec 64) (n : Nat) : Decidable (Below p n) := inferInstanceAs (Decidable (_ ∨ _))

variable {p v : BitVec 64} {n i : Nat}

theorem Below.lt (h : Below p n) (hi : i < n) : (p + BitVec.ofNat 64 i).toNat < 2 ^ 47 := by
  unfold Below at h
  grind

theorem Below.part (h : Below p n) {m : Nat} (hm : i + m ≤ n) : Below (p + BitVec.ofNat 64 i) m := by
  grind [Below, toNat_add, toNat_ofNat]

theorem exists_of_not_below (h : ¬Below p n) : ∃ i, i < n ∧ 2 ^ 47 ≤ (p + BitVec.ofNat 64 i).toNat := by
  unfold Below at h
  rcases Nat.lt_or_ge p.toNat (2 ^ 47) with hp | hp
  · refine ⟨2 ^ 47 - p.toNat, by omega, ?_⟩
    grind
  · refine ⟨0, by omega, ?_⟩
    rw [toNat_add, toNat_ofNat]
    omega

theorem below_iff_forall : Below p n ↔ ∀ a, p.toNat ≤ a → a < p.toNat + n → a < 2 ^ 47 := by
  unfold Below
  constructor
  · intro h a _ ha
    omega
  · intro h
    by_contra hnot
    have := h (p.toNat + n - 1) (by omega) (by omega)
    omega

/-- What the check asks for: a start in user space, and an end that fits into 64 bits with the size as it was computed. -/
theorem isUserPointerValid_iff (sizeOf ptr count : BitVec 64) :
    isUserPointerValid sizeOf ptr count = true ↔
      ptr.toNat < 2 ^ 47 ∧ ptr.toNat + count.toNat * sizeOf.toNat % 2 ^ 64 < 2 ^ 64 := by
  have hl : ptr ≥ 0x0000800000000000 ↔ 2 ^ 47 ≤ ptr.toNat := le_def
  unfold isUserPointerValid
  dsimp only
  rw [toNat_mul]
  by_cases hptr : ptr ≥ 0x0000800000000000
  · simp_all
  · rw [if_neg hptr]
    rw [hl] at hptr
    split_ifs with hend
    · exact iff_of_false id (by omega)
    · exact iff_of_true rfl (by omega)

/-- The bytes of a range that the check accepts are user addresses, except for a range that starts in user space and ends
behind it: the end is never compared with the limit. -/
theorem accepted_range_user_iff (sizeOf ptr count : BitVec 64) :
    (isUserPointerValid sizeOf ptr count = true →
        ∀ a, ptr.toNat ≤ a → a < ptr.toNat + count.toNat * sizeOf.toNat → a < 2 ^ 47) ↔
      2 ^ 47 ≤ ptr.toNat ∨ 2 ^ 64 ≤ ptr.toNat + count.toNat * sizeOf.toNat % 2 ^ 64 ∨
        count.toNat * sizeOf.toNat = 0 ∨ ptr.toNat + count.toNat * sizeOf.toNat ≤ 2 ^ 47 := by
  rw [isUserPointerValid_iff, ← below_iff_forall]
  unfold Below
  omega

/-- Two bytes over the limit, and words whose size wraps around to zero. -/
theorem accepts_range_over_limit :
    (isUserPointerValid 1 0x00007FFFFFFFFFFF 2 = true ∧
        ¬∀ a, (0x00007FFFFFFFFFFF : BitVec 64).toNat ≤ a →
          a < (0x00007FFFFFFFFFFF : BitVec 64).toNat + (2 : BitVec 64).toNat * (1 : BitVec 64).toNat → a < 2 ^ 47) ∧
      isUserPointerValid 8 0 0x2000000000000000 = true ∧
        ¬∀ a, (0 : BitVec 64).toNat ≤ a →
          a < (0 : BitVec 64).toNat + (0x2000000000000000 : BitVec 64).toNat * (8 : BitVec 64).toNat → a < 2 ^ 47 :=
  ⟨⟨by decide, fun h => absurd (h (2 ^ 47) (by decide) (by decide)) (by decide)⟩, by decide,
    fun h => absurd (h (2 ^ 47) (by decide) (by decide)) (by decide)⟩

/-! ### The log -/

def UserOnly (s : SysState) : Prop := ∀ a ∈ s.touched, a.toNat < 2 ^ 47

variable {α β : Type} {c : SyscallM α} {f : α → SyscallM β} {s : SysState}

def Quiet (c : SyscallM α) : Prop := ∀ log, Keeps (fun s => s.touched = log) c

def Grows (c : SyscallM α) : Prop := ∀ v, Keeps (fun s => v ∈ s.touched) c

theorem Quiet.keeps (h : Quiet c) (P : List (BitVec 64) → Prop) : Keeps (fun s => P s.touched) c := by
  intro s hs
  have hend := h s.touched s rfl
  exact hend.mono (fun _ s' heq => heq ▸ hs) fun _ s' heq => heq ▸ hs

theorem Quiet.userOnly (h : Quiet c) : Keeps UserOnly c := h.keeps fun log => ∀ a ∈ log, a.toNat < 2 ^ 47

theorem Quiet.grows (h : Quiet c) : Grows c := fun v => h.keeps fun log => v ∈ log

theorem quiet_pure (a : α) : Quiet (pure a : SyscallM α) := fun _ => keeps_pure a

theorem quiet_throw (e : SysStop) : Quiet (throw e : SyscallM α) := fun _ => keeps_throw e

theorem quiet_fail (e : SyscallError) : Quiet (fail e : SyscallM α) := quiet_throw _

theorem quiet_get : Quiet (get : SyscallM SysState) := fun _ => keeps_get

theorem quiet_modify {g : SysState → SysState} (hg : ∀ s, (g s).touched = s.touched) :
    Quiet (modify g : SyscallM PUnit) :=
  fun _ => keeps_modify fun s hs => (hg s).trans hs

theorem Quiet.bind (hc : Quiet c) (hf : ∀ a, Quiet (f a)) : Quiet (c >>= f) := fun log => (hc log).bind fun a => hf a log

theorem quiet_modify_bind {g : SysState → SysState} {f : PUnit → SyscallM β} (hg : ∀ s, (g s).touched = s.touched)
    (hf : ∀ a, Quiet (f a)) : Quiet (modify g >>= f) :=
  (quiet_modify hg).bind hf

theorem Grows.bind (hc : Grows c) (hf : ∀ a, Grows (f a)) : Grows (c >>= f) := fun v => (hc v).bind fun a => hf a v

theorem quiet_ite {q : Prop} [Decidable q] {d : SyscallM α} (hc : Quiet c) (hd : Quiet d) : Quiet (if q then c else d) := by
  by_cases h : q
  · rwa [if_pos h]
  · rwa [if_neg h]

theorem quiet_forM {f : α → SyscallM PUnit} (xs : List α) (hf : ∀ x, Quiet (f x)) : Quiet (forM xs f) :=
  fun log => keeps_forM xs fun x _ => hf x log

theorem grows_forM {f : α → SyscallM PUnit} (xs : List α) (hf : ∀ x, Grows (f x)) : Grows (forM xs f) :=
  fun v => keeps_forM xs fun x _ => hf x v

theorem quiet_orInvalid (o : Option α) : Quiet (orInvalid o) := by
  cases o with
  | some a => exact quiet_pure a
  | none => exact quiet_fail _

theorem quiet_emit (o : Output) : Quiet (emit o) := quiet_modify fun _ => rfl

/-! ### Accesses -/

theorem touch_ends (v : BitVec 64) (s : SysState) :
    Ends (touch v) s (fun _ s' => s'.touched = v :: s.touched) fun _ s' => s'.touched = v :: s.touched := by
  refine ends_bind (ends_modify (ends_bind (ends_get ?_)))
  split
  · exact ends_pure rfl
  · exact ends_throw rfl

theorem touch_userOnly (h : v.toNat < 2 ^ 47) : Keeps UserOnly (touch v) := by
  have hnext : ∀ s s' : SysState, UserOnly s → s'.touched = v :: s.touched → UserOnly s' := by
    intro s s' hs heq a ha
    rw [heq, mem_cons] at ha
    rcases ha with rfl | ha
    · exact h
    · exact hs a ha
  exact fun s hs => (touch_ends v s).mono (fun _ s' => hnext s s' hs) fun _ s' => hnext s s' hs

theorem grows_touch (v : BitVec 64) : Grows (touch v) := by
  intro a s ha
  have hmem : a ∈ v :: s.touched := mem_cons_of_mem v ha
  exact (touch_ends v s).mono (fun _ s' heq => heq ▸ hmem) fun _ s' heq => heq ▸ hmem

theorem touchRange_userOnly (h : Below p n) : Keeps UserOnly (touchRange p n) :=
  keeps_forM _ fun _ hi => touch_userOnly (h.lt (mem_range.1 hi))

theorem grows_touchRange (p : BitVec 64) (n : Nat) : Grows (touchRange p n) := grows_forM _ fun _ => grows_touch _

theorem readByte_userOnly (h : v.toNat < 2 ^ 47) : Keeps UserOnly (readByte v) :=
  (touch_userOnly h).bind fun _ => keeps_get.bind fun _ => keeps_pure _

theorem grows_readByte (v : BitVec 64) : Grows (readByte v) :=
  (grows_touch v).bind fun _ => quiet_get.grows.bind fun _ => (quiet_pure _).grows

theorem touched_poke (s : SysState) (v : BitVec 64) (b : Byte) : (s.poke v b).touched = s.touched := by
  unfold SysState.poke
  split <;> rfl

theorem quiet_pokes (p : BitVec 64) (bytes : List Byte) :
    Quiet (modify fun s => bytes.zipIdx.foldl (fun s (b, i) => s.poke (p + BitVec.ofNat 64 i) b) s) := by
  refine quiet_modify ?_
  generalize bytes.zipIdx = pairs
  induction pairs with
  | nil => exact fun _ => rfl
  | cons x pairs ih => exact fun s => (ih _).trans (touched_poke s _ _)

theorem writeBytes_userOnly {bytes : List Byte} (h : Below p bytes.length) : Keeps UserOnly (writeBytes p bytes) :=
  (touchRange_userOnly h).bind fun _ => (quiet_pokes p bytes).userOnly

section

variable (env : Env)

theorem length_bytesAt (s : SysState) (p : BitVec 64) (n : Nat) : (s.bytesAt p n).length = n := by
  unfold SysState.bytesAt
  rw [length_map, length_range]

theorem strAt_userOnly (h : Below p n) : Keeps UserOnly (strAt env p n) := by
  refine keeps_get.bind fun s => (touchRange_userOnly ?_).bind fun _ => keeps_pure _
  have hle := env.examined_le p (s.bytesAt p n)
  grind [Below, length_bytesAt]

theorem grows_strAt (p : BitVec 64) (n : Nat) : Grows (strAt env p n) :=
  quiet_get.grows.bind fun _ => (grows_touchRange _ _).bind fun _ => (quiet_pure _).grows

theorem scanString_userOnly {len : Nat} (h : Below p (len + n)) (hs : UserOnly s) :
    Ends (scanString p n len) s (fun r s' => UserOnly s' ∧ r ≤ len + n) (fun _ => UserOnly) := by
  induction n generalizing len s with
  | zero => exact ends_pure ⟨hs, Nat.le_refl _⟩
  | succ n ih =>
    refine Ends.bind (readByte_userOnly (h.lt (by omega)) s hs) ?_
    intro b s' hs'
    split
    · exact ends_pure ⟨hs', by omega⟩
    · grind

theorem readUserString_userOnly {maxLen : BitVec 64}
    (h : isUserPointerValid 1 p maxLen = true → Below p maxLen.toNat) : Keeps UserOnly (readUserString env p maxLen) := by
  intro s hs
  unfold readUserString
  split
  · exact ends_throw hs
  · have hb : Below p (0 + maxLen.toNat) := by
      simp_all
    refine Ends.bind (scanString_userOnly hb hs) ?_
    intro len s' hlen
    have hpart : Below p len := by
      grind [Below]
    exact ((strAt_userOnly env hpart).bind fun o => (quiet_orInvalid o).userOnly) s' hlen.1

theorem grows_scanString (p : BitVec 64) (n : Nat) : ∀ len, Grows (scanString p n len) := by
  induction n with
  | zero => exact fun len => (quiet_pure len).grows
  | succ n ih =>
    intro len
    refine (grows_readByte _).bind fun b => ?_
    by_cases hb : b = 0
    · rw [if_pos hb]
      exact (quiet_pure len).grows
    · rw [if_neg hb]
      exact ih (len + 1)

end

/-! ### Reaching an address -/

def Reaches (v : BitVec 64) (c : SyscallM α) (s : SysState) : Prop :=
  Ends c s (fun _ s' => v ∈ s'.touched) (fun _ s' => v ∈ s'.touched)

theorem Reaches.bind (h : Reaches v c s) (hf : ∀ a, Grows (f a)) : Reaches v (c >>= f) s :=
  Ends.bind h (fun a s' h' => hf a v s' h')

theorem reaches_bind_of {R : α → SysState → Prop} (hc : Ends c s R fun _ _ => False)
    (hf : ∀ a s', R a s' → Reaches v (f a) s') : Reaches v (c >>= f) s :=
  ends_bind_of hc hf fun _ _ h => h.elim

theorem reaches_tryCatch {handler : SysStop → SyscallM α} (h : Reaches v c s) (hh : ∀ e, Grows (handler e)) :
    Reaches v (tryCatch c handler) s :=
  ends_tryCatch (h.mono (fun _ _ h' => h') fun e s' h' => hh e v s' h')

theorem reaches_forM {f : α → SyscallM PUnit} {I : SysState → Prop} {x : α} (xs : List α) (hx : x ∈ xs)
    (hends : ∀ y s, I s → Ends (f y) s (fun _ => I) fun _ _ => False) (hg : ∀ y, Grows (f y))
    (hr : ∀ s, I s → Reaches v (f x) s) (h : I s) : Reaches v (forM xs f) s := by
  induction xs generalizing s with
  | nil => cases hx
  | cons y xs ih =>
    rcases mem_cons.1 hx with rfl | hx
    · exact (hr s h).bind fun _ => grows_forM xs hg
    · exact reaches_bind_of (hends y s h) fun _ s' h' => ih hx h'

/-! ### Flat memory -/

/-- Four tables that lead from every address to the frame behind them, and the same byte everywhere else. -/
def flatMemory (b : Byte) : ByteMem := fun a =>
  if a.toNat < 16384 then
    if a.toNat % 8 = 0 then 1 else if a.toNat % 8 = 1 then BitVec.ofNat 8 (16 * (a.toNat / 4096 + 1)) else 0
  else b

theorem flatMemory_byte (b : Byte) {t : Nat} (ht : t < 4) (i : Fin 512) {k : Nat} (hk : k < 8) :
    flatMemory b (X86.entryAddr t i + BitVec.ofNat 64 k) =
      if k = 0 then 1 else if k = 1 then BitVec.ofNat 8 (16 * (t + 1)) else 0 := by
  have haddr : (X86.entryAddr t i + BitVec.ofNat 64 k).toNat = 4096 * t + 8 * i + k := by
    rw [toNat_add, X86.entryAddr_toNat (by omega), toNat_ofNat]
    omega
  grind [flatMemory]

theorem entry_flatMemory (b : Byte) {t : Nat} (ht : t < 4) (i : Fin 512) :
    X86.entry (flatMemory b) t i = BitVec.ofNat 64 (4096 * (t + 1) + 1) := by
  have h0 : flatMemory b (X86.entryAddr t i) = 1 := by simpa using flatMemory_byte b ht i (k := 0) (by decide)
  have h1 : flatMemory b (X86.entryAddr t i + 1) = BitVec.ofNat 8 (16 * (t + 1)) := flatMemory_byte b ht i (by decide)
  have h2 : flatMemory b (X86.entryAddr t i + 2) = 0 := flatMemory_byte b ht i (by decide)
  have h3 : flatMemory b (X86.entryAddr t i + 3) = 0 := flatMemory_byte b ht i (by decide)
  have h4 : flatMemory b (X86.entryAddr t i + 4) = 0 := flatMemory_byte b ht i (by decide)
  have h5 : flatMemory b (X86.entryAddr t i + 5) = 0 := flatMemory_byte b ht i (by decide)
  have h6 : flatMemory b (X86.entryAddr t i + 6) = 0 := flatMemory_byte b ht i (by decide)
  have h7 : flatMemory b (X86.entryAddr t i + 7) = 0 := flatMemory_byte b ht i (by decide)
  unfold X86.entry ByteMem.read64
  rw [h0, h1, h2, h3, h4, h5, h6, h7]
  obtain rfl | rfl | rfl | rfl : t = 0 ∨ t = 1 ∨ t = 2 ∨ t = 3 := by omega
  all_goals decide

theorem entry_bits {t : Nat} (ht : t < 4) :
    X86.present (BitVec.ofNat 64 (4096 * (t + 1) + 1)) = true ∧ X86.huge (BitVec.ofNat 64 (4096 * (t + 1) + 1)) = false ∧
      X86.target (BitVec.ofNat 64 (4096 * (t + 1) + 1)) = t + 1 := by
  match t, ht with
  | 0, _ => decide
  | 1, _ => decide
  | 2, _ => decide
  | 3, _ => decide

theorem walk_flatMemory (b : Byte) (v : BitVec 64) (level : Nat) : level < 4 →
    ((X86.walk (flatMemory b) v level (3 - level)).map Prod.fst) = some (16384 + v.toNat % 4096) := by
  induction level with
  | zero =>
    intro _
    obtain ⟨hp, -, hta⟩ := entry_bits (show 3 < 4 by decide)
    unfold X86.walk
    rw [entry_flatMemory b (by decide), if_pos hp, hta]
    rfl
  | succ level ih =>
    intro hlt
    have ht : 3 - (level + 1) < 4 := by omega
    obtain ⟨hp, hh, hta⟩ := entry_bits ht
    rw [X86.walk_of_table (by rw [entry_flatMemory b ht]; exact hp) (by rw [entry_flatMemory b ht]; exact hh),
      entry_flatMemory b ht, hta, show 3 - (level + 1) + 1 = 3 - level by omega, Option.map_map]
    exact ih (by omega)

/-- A state in which every address is mapped and holds the byte `b`. -/
structure Flat (b : Byte) (s : SysState) : Prop where
  mem : s.phys.mem = flatMemory b
  cr3 : s.cr3 = 0

variable {b : Byte}

theorem Flat.physical (h : Flat b s) (v : BitVec 64) :
    s.physical v = some (BitVec.ofNat 64 (16384 + v.toNat % 4096)) := by
  have hwalk := walk_flatMemory b v 3 (by decide)
  obtain ⟨w, hw, hfst⟩ := Option.map_eq_some_iff.1 hwalk
  have hroot : (PhysAddr.new 0).frame = 3 - 3 := by decide
  grind [SysState.physical, h.mem, h.cr3, Option.map_some]

theorem Flat.peek (h : Flat b s) (v : BitVec 64) : s.peek v = b := by
  unfold SysState.peek
  rw [h.physical v, h.mem]
  refine if_neg ?_
  rw [toNat_ofNat]
  omega

theorem Flat.bytesAt (h : Flat b s) (p : BitVec 64) (n : Nat) : s.bytesAt p n = List.replicate n b := by
  unfold SysState.bytesAt
  simp only [h.peek, map_const', length_range]

/-- The state after some accesses that found their pages. -/
def After (s s' : SysState) : Prop := ∃ log, s' = { s with touched := log }

theorem After.refl (s : SysState) : After s s := ⟨s.touched, rfl⟩

theorem After.trans {s1 s2 s3 : SysState} (h : After s1 s2) (h' : After s2 s3) : After s1 s3 := by
  obtain ⟨log, rfl⟩ := h
  obtain ⟨log', rfl⟩ := h'
  exact ⟨log', rfl⟩

section

variable (h : Flat b s)
include h

theorem Flat.after {s' : SysState} (ha : After s s') : Flat b s' := by
  obtain ⟨log, rfl⟩ := ha
  exact ⟨h.mem, h.cr3⟩

theorem Flat.touch_ends (v : BitVec 64) :
    Ends (touch v) s (fun _ s' => After s s' ∧ v ∈ s'.touched) fun _ _ => False := by
  have hm : (SysState.physical { s with touched := v :: s.touched } v).isSome := by
    rw [(h.after ⟨_, rfl⟩ : Flat b { s with touched := v :: s.touched }).physical v]
    rfl
  refine ends_bind (ends_modify (ends_bind (ends_get ?_)))
  rw [if_pos hm]
  exact ends_pure ⟨⟨_, rfl⟩, mem_cons_self⟩

theorem Flat.touchRange_ends (p : BitVec 64) (n : Nat) :
    Ends (touchRange p n) s (fun _ s' => After s s') fun _ _ => False := by
  refine Ends.imp (ends_forM (range n) (fun _ s' => After s s') ?_ (After.refl s)) (fun _ _ h' => h')
  intro i rest s' ha
  exact ((h.after ha).touch_ends _).imp (fun _ _ h' => ha.trans h'.1)

theorem Flat.touchRange_reaches (hi : i < n) :
    Reaches (p + BitVec.ofNat 64 i) (touchRange p n) s := by
  refine reaches_forM (I := Flat b) (range n) (mem_range.2 hi) ?_ (fun _ => grows_touch _) ?_ h
  · exact fun j s' hs' => (hs'.touch_ends _).imp (fun _ _ h' => hs'.after h'.1)
  · exact fun s' hs' => (hs'.touch_ends _).mono (fun _ _ h' => h'.2) fun _ _ h' => h'.elim

theorem Flat.writeBytes_reaches {bytes : List Byte} (hi : i < bytes.length) :
    Reaches (p + BitVec.ofNat 64 i) (writeBytes p bytes) s :=
  (h.touchRange_reaches hi).bind fun _ => (quiet_pokes p bytes).grows

theorem Flat.readByte_ends (v : BitVec 64) :
    Ends (readByte v) s (fun x s' => x = b ∧ After s s' ∧ v ∈ s'.touched) fun _ _ => False := by
  refine Ends.bind (h.touch_ends v) ?_
  intro _ s' hs'
  exact ends_bind (ends_get (ends_pure ⟨(h.after hs'.1).peek v, hs'.1, hs'.2⟩))

end

section

variable (env : Env)

theorem Flat.strAt_reaches (h : Flat 1 s) (hi : i < n) : Reaches (p + BitVec.ofNat 64 i) (strAt env p n) s := by
  refine ends_bind (ends_get ?_)
  have hall : env.examined p (s.bytesAt p n) = n := by
    rw [h.bytesAt, env.examined_of_valid p _ (Fs.isSome_fromUtf8_replicate n), length_replicate]
  exact Reaches.bind (by rw [hall]; exact h.touchRange_reaches hi) fun _ => (quiet_pure _).grows

theorem Flat.scanString_reaches (h : Flat 1 s) {len : Nat} (hi : i < n) :
    Reaches (p + BitVec.ofNat 64 (len + i)) (scanString p n len) s := by
  induction n generalizing s len i with
  | zero => omega
  | succ n ih =>
    cases i with
    | zero =>
      refine Reaches.bind ((h.readByte_ends _).mono (fun _ _ h' => h'.2.2) fun _ _ h' => h'.elim) fun x => ?_
      by_cases hx : x = 0
      · rw [if_pos hx]
        exact (quiet_pure _).grows
      · rw [if_neg hx]
        exact grows_scanString p n (len + 1)
    | succ i =>
      refine reaches_bind_of (h.readByte_ends _) fun x s' hs' => ?_
      rw [if_neg (by rw [hs'.1]; decide), show len + (i + 1) = len + 1 + i by omega]
      exact ih (h.after hs'.2.1) (by omega)

theorem Flat.readUserString_reaches (h : Flat 1 s) {maxLen : BitVec 64} (hv : isUserPointerValid 1 p maxLen = true)
    (hi : i < maxLen.toNat) : Reaches (p + BitVec.ofNat 64 i) (readUserString env p maxLen) s := by
  unfold readUserString
  rw [if_neg (by rw [hv]; decide)]
  have hscan : Reaches (p + BitVec.ofNat 64 (0 + i)) (scanString p maxLen.toNat 0) s := h.scanString_reaches hi
  rw [Nat.zero_add] at hscan
  exact hscan.bind fun len => (grows_strAt env p len).bind fun o => (quiet_orInvalid o).grows

theorem Flat.readUserString_empty (h : Flat 0 s) {maxLen : BitVec 64} (hv : isUserPointerValid 1 p maxLen = true)
    (hlen : maxLen ≠ 0) :
    Ends (readUserString env p maxLen) s (fun str s' => str = "" ∧ After s s') fun _ _ => False := by
  obtain ⟨n, hn⟩ : ∃ n, maxLen.toNat = n + 1 :=
    Nat.exists_eq_succ_of_ne_zero fun h0 => hlen (eq_of_toNat_eq h0)
  unfold readUserString
  rw [if_neg (by rw [hv]; decide), hn, scanString]
  refine ends_bind (Ends.bind (h.readByte_ends _) ?_)
  intro x s' hs'
  rw [if_pos hs'.1]
  refine ends_pure (ends_bind (ends_bind (ends_get ?_)))
  have hnone : env.examined p (s'.bytesAt p 0) = 0 := Nat.le_zero.1 (env.examined_le p _)
  dsimp only
  rw [hnone]
  exact ⟨rfl, hs'.2.1⟩

end

end AstralOS.Syscall

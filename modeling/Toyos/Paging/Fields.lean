import Toyos.Paging.Entry

/-!
# Field isolation of paging-structure entries

Each setter owns a field of the entry. The value it passes to `set_bits` is not
reduced to that field, so a stray bit of an address or of a protection key ends
up in another one; without stray bits a setter changes its own field only, and
the getter reads the value that the config constructor would have stored.
-/

namespace Toyos.Paging

open Toyos.Core Toyos.Util

/-- What a getter returns. -/
inductive Reading where
  /-- A flag. -/
  | flag (value : Bool)
  /-- An address, if the entry has one. -/
  | address (value : Option (BitVec 64))
  /-- A protection key, if the entry has one. -/
  | key (value : Option (BitVec 8))
  deriving DecidableEq, Repr

/-- An address aligned down to a power of two, within the physical address width of 52 bits. -/
def alignedAddress (shift : ℕ) (addr : BitVec 64) : BitVec 64 :=
  BitVec.ofNat 64 (addr.toNat / 2 ^ shift % 2 ^ (52 - shift) * 2 ^ shift)

/-- A protection key modulo sixteen. -/
def reducedKey (key : BitVec 8) : BitVec 8 := BitVec.ofNat 8 (key.toNat % 16)

section Bits

variable {raw : BitVec 64} {i k : ℕ} {value : Bool}

theorem maskBits_one (k : ℕ) : maskBits 1 k = flag 64 k := by
  apply BitVec.eq_of_toNat_eq
  simp [maskBits, mask, wrap, flag]

/-- Testing a one-bit mask reads the bit. -/
theorem test_maskBits : test raw (maskBits 1 k) = raw.getLsbD k := by
  rw [maskBits_one, ← hasFlag_eq]
  rfl

theorem isPresent_eq : isPresent raw = raw.getLsbD 0 := test_maskBits

theorem getLsbD_times (hk : k < 64) :
    (times value (maskBits 1 k)).getLsbD i = (value && decide (i = k)) := by
  rw [times, maskBits_one]
  cases value with
  | false => simp
  | true => simpa using getLsbD_flag hk

/-- A flag read back through its mask. -/
theorem test_of_field (hk : k < 64)
    (h : raw &&& maskBits 1 k = times value (maskBits 1 k) &&& maskBits 1 k) :
    test raw (maskBits 1 k) = value := by
  have hself : (maskBits 1 k).getLsbD k = true := by
    rw [maskBits_one, getLsbD_flag hk, decide_eq_true rfl]
  have hbit := congrArg (BitVec.getLsbD · k) h
  simp only [BitVec.getLsbD_and, getLsbD_times hk, hself, decide_true, Bool.and_true] at hbit
  rw [test_maskBits, hbit]

/-- A getter reads the flag when the condition that guards it holds. -/
theorem guarded_test {guard : Bool} (hk : k < 64) (hguard : guard = true)
    (h : raw &&& maskBits 1 k = times value (maskBits 1 k) &&& maskBits 1 k) :
    (guard && test raw (maskBits 1 k)) = value := by
  rw [hguard, test_of_field hk h, Bool.true_and]

/-- The present bit after it has been set. -/
theorem isPresent_setBits_times :
    isPresent (setBits raw prMask (times value prMask)) = value :=
  test_of_field (by decide) setBits_and_clr

/-- A bit determines the field of its mask. -/
theorem field_of_bit (hk : k < 64) (h : raw.getLsbD k = value) :
    raw &&& maskBits 1 k = times value (maskBits 1 k) &&& maskBits 1 k := by
  refine and_eq_of_field fun i hi => ?_
  obtain ⟨hlow, hhigh⟩ := mem_maskBits (by decide) hi
  have hik : i = k := by omega
  rw [getLsbD_times hk, hik, h, decide_eq_true rfl, Bool.and_true]

/-- A bit that is raised and does not belong to the field stays raised. -/
theorem getLsbD_setBits_of_raised {clr set : BitVec 64} (h : raw.getLsbD i = true)
    (hclr : clr.getLsbD i = false) : (setBits raw clr set).getLsbD i = true := by
  rw [getLsbD_setBits, h, hclr]
  rfl

/-- A flag never spills over. -/
theorem times_clean (value : Bool) (mask : BitVec 64) :
    times value mask &&& ~~~mask &&& ~~~raw = 0 := by
  cases value with
  | false => simp [times]
  | true => simp [times]

theorem getLsbD_keyBits {key : BitVec 8} :
    (keyBits key).getLsbD i = (decide (i < 64) && decide (59 ≤ i) && key.getLsbD (i - 59)) := by
  rw [keyBits, BitVec.getLsbD_shiftLeft, BitVec.getLsbD_setWidth]
  by_cases hi : i < 64
  · by_cases h : 59 ≤ i
    · simp [hi, h, show i - 59 < 64 by omega]
    · simp [h]
  · simp [hi]

/-- Reading a key back reduces it modulo sixteen. -/
theorem keyBits_field (key : BitVec 8) :
    ((keyBits key &&& protKeyMask) >>> 59).setWidth 8 = reducedKey key := by
  apply BitVec.eq_of_getLsbD_eq
  intro i hi
  rw [BitVec.getLsbD_setWidth, BitVec.getLsbD_ushiftRight, BitVec.getLsbD_and, getLsbD_keyBits,
    protKeyMask, getLsbD_maskBits (by decide), reducedKey, BitVec.getLsbD_ofNat,
    show 16 = 2 ^ 4 by rfl, Nat.testBit_mod_two_pow]
  by_cases h : i < 4
  · simp [hi, h, show 59 + i < 64 by omega, show 59 + i < 63 by omega, BitVec.getLsbD]
  · simp [h, show ¬59 + i < 63 by omega]

/-- The only bit of a key that can spill over goes to the execute-disable bit. -/
theorem keyBits_clean_iff {key : BitVec 8} :
    keyBits key &&& ~~~protKeyMask &&& ~~~raw = 0 ↔
      (key.getLsbD 4 = true → raw.getLsbD 63 = true) := by
  rw [BitVec.eq_of_getLsbD_eq_iff]
  simp (disch := decide) only [BitVec.getLsbD_and, BitVec.getLsbD_not, getLsbD_keyBits,
    protKeyMask, getLsbD_maskBits]
  constructor
  · intro h hkey
    have hbit := h 63 (by decide)
    simpa [hkey] using hbit
  · intro h i hi
    by_cases htop : i = 63
    · subst htop
      cases hkey : key.getLsbD 4 with
      | false => simp
      | true => simp [h hkey]
    · by_cases hlow : 59 ≤ i
      · simp [hi, hlow, show i < 63 by omega]
      · simp [hlow]

end Bits

namespace Pte

namespace Setter

/-- The bits that belong to a setter. -/
def field : Setter → BitVec 64
  | setPresent _ => prMask
  | setWriteable _ => rwMask
  | setUsermode _ => usMask
  | setPwt _ => pwtMask
  | setPcd _ => pcdMask
  | setAccessed _ => aMask
  | setExecDisable _ => xdMask
  | setDirty _ => dMask
  | setPat _ => patMask
  | setGlobal _ => glMask
  | setPhysAddr _ => addrMask
  | setProtKey _ => protKeyMask

/-- The bits that a setter raises. -/
def value : Setter → BitVec 64
  | setPhysAddr addr => addr
  | setProtKey key => keyBits key
  | s@(setPresent value) | s@(setWriteable value) | s@(setUsermode value) | s@(setPwt value)
  | s@(setPcd value) | s@(setAccessed value) | s@(setExecDisable value) | s@(setDirty value)
  | s@(setPat value) | s@(setGlobal value) => times value s.field

/-- The matching getter. -/
def read (raw : BitVec 64) : Setter → Reading
  | setPresent _ => .flag (isPresent raw)
  | setWriteable _ => .flag (isWriteable raw)
  | setUsermode _ => .flag (isUsermode raw)
  | setPwt _ => .flag (isPwt raw)
  | setPcd _ => .flag (isPcd raw)
  | setAccessed _ => .flag (isAccessed raw)
  | setExecDisable _ => .flag (isExecDisable raw)
  | setDirty _ => .flag (isDirty raw)
  | setPat _ => .flag (isPat raw)
  | setGlobal _ => .flag (isGlobal raw)
  | setPhysAddr _ => .address (getPhysAddr raw)
  | setProtKey _ => .key (getProtKey raw)

/-- The argument reduced to the field. -/
def reduced : Setter → Reading
  | setPhysAddr addr => .address (some (alignedAddress 12 addr))
  | setProtKey key => .key (some (reducedKey key))
  | setPresent value | setWriteable value | setUsermode value | setPwt value | setPcd value
  | setAccessed value | setExecDisable value | setDirty value | setPat value
  | setGlobal value => .flag value

/-- The description with the argument in the field of the setter. -/
def into (config : PtEntry) : Setter → PtEntry
  | setPresent value => { config with present := value }
  | setWriteable value => { config with readwrite := value }
  | setUsermode value => { config with usermode := value }
  | setPwt value => { config with pwt := value }
  | setPcd value => { config with pcd := value }
  | setAccessed value => { config with accessed := value }
  | setExecDisable value => { config with execute := value }
  | setDirty value => { config with dirty := value }
  | setPat value => { config with pat := value }
  | setGlobal value => { config with global := value }
  | setPhysAddr addr => { config with address := addr }
  | setProtKey key => { config with key := key }

/-- Whether the matching getter has something to read: the entry is present, which the present
bit itself does not require. -/
def Readable (raw : BitVec 64) : Setter → Prop
  | setPresent _ => True
  | _ => isPresent raw = true

/-- The argument has no stray bits: an address raises none outside its field, and bit four of a
key is clear, unless the entry has the bit in question already. -/
def Fits (raw : BitVec 64) : Setter → Prop
  | setPhysAddr addr => addr &&& ~~~addrMask &&& ~~~raw = 0
  | setProtKey key => key.getLsbD 4 = true → raw.getLsbD 63 = true
  | _ => True

end Setter

/-- A call has changed nothing outside the field of the setter, and the getter returns the
reduced argument, for the entry as for every one built from a description with it. -/
structure Sound (s : Setter) (raw raw' : BitVec 64) : Prop where
  /-- No other bit has changed. -/
  frame : raw' &&& ~~~s.field = raw &&& ~~~s.field
  /-- The getter returns the reduced argument. -/
  reads : s.Readable raw → s.read raw' = s.reduced
  /-- So it does for an entry built by the config constructor. -/
  built : ∀ config, s.Readable (ofConfig (s.into config)) →
    s.read (ofConfig (s.into config)) = s.reduced

variable {raw : BitVec 64} {s : Setter} {invl : TlbInvalidation} {i : ℕ}

theorem raw_call : (call raw invl s).raw = setBits raw s.field s.value := by
  cases s <;> rfl

/-- Stray bits are those outside the field. -/
theorem fits_iff : s.Fits raw ↔ s.value &&& ~~~s.field &&& ~~~raw = 0 := by
  cases s with
  | setPhysAddr addr => exact Iff.rfl
  | setProtKey key => exact keyBits_clean_iff.symm
  | _ => exact iff_of_true trivial (times_clean _ _)

theorem getLsbD_ofConfig (config : PtEntry) : (ofConfig config).getLsbD i =
    (config.present && decide (i = 0) || config.readwrite && decide (i = 1) ||
      config.usermode && decide (i = 2) || config.pwt && decide (i = 3) ||
      config.pcd && decide (i = 4) || config.accessed && decide (i = 5) ||
      config.dirty && decide (i = 6) || config.pat && decide (i = 7) ||
      config.global && decide (i = 8) || config.execute && decide (i = 63) ||
      config.address.getLsbD i && addrMask.getLsbD i ||
      (keyBits config.key).getLsbD i && protKeyMask.getLsbD i) := by
  simp (disch := decide) only [ofConfig, BitVec.getLsbD_or, BitVec.getLsbD_and, prMask, rwMask,
    usMask, pwtMask, pcdMask, aMask, dMask, patMask, glMask, xdMask, getLsbD_times]

/-- From the address bits on, only the execute-disable bit is neither address nor key. -/
theorem getLsbD_ofConfig_high (config : PtEntry) (h : 9 ≤ i) (hxd : i ≠ 63) :
    (ofConfig config).getLsbD i = (config.address.getLsbD i && addrMask.getLsbD i ||
      (keyBits config.key).getLsbD i && protKeyMask.getLsbD i) := by
  rw [getLsbD_ofConfig]
  simp [show i ≠ 0 by omega, show i ≠ 1 by omega, show i ≠ 2 by omega, show i ≠ 3 by omega,
    show i ≠ 4 by omega, show i ≠ 5 by omega, show i ≠ 6 by omega, show i ≠ 7 by omega,
    show i ≠ 8 by omega, hxd]

/-- Among the address bits the constructor stores the address only. -/
theorem ofConfig_and_addrMask (config : PtEntry) :
    ofConfig config &&& addrMask = config.address &&& addrMask := by
  refine and_eq_of_field fun i hi => ?_
  obtain ⟨hlow, hhigh⟩ := mem_maskBits (by decide) hi
  have hkey : protKeyMask.getLsbD i = false := getLsbD_maskBits_below (by decide) (by omega)
  rw [getLsbD_ofConfig_high config (by omega) (by omega), hi, hkey]
  simp

/-- Among the key bits the constructor stores the key only. -/
theorem ofConfig_and_protKeyMask (config : PtEntry) :
    ofConfig config &&& protKeyMask = keyBits config.key &&& protKeyMask := by
  refine and_eq_of_field fun i hi => ?_
  obtain ⟨hlow, hhigh⟩ := mem_maskBits (by decide) hi
  have haddr : addrMask.getLsbD i = false :=
    Bool.eq_false_iff.mpr fun h => absurd (mem_maskBits (by decide) h).2 (by omega)
  rw [getLsbD_ofConfig_high config (by omega) (by omega), hi, haddr]
  simp

/-- The getters read the reduced argument from whatever entry has the raised bits in the field
of the setter. -/
theorem read_eq {e : BitVec 64} (h : s.Readable e)
    (hfield : e &&& s.field = s.value &&& s.field) : s.read e = s.reduced := by
  cases s with
  | setPresent value => exact congrArg Reading.flag (test_of_field (by decide) hfield)
  | setPhysAddr addr =>
    have hpresent : isPresent e = true := h
    have haddr : e &&& addrMask = addr &&& addrMask := hfield
    rw [Setter.read, getPhysAddr, if_pos hpresent, haddr, addrMask, and_maskBits _ (by decide)]
    rfl
  | setProtKey key =>
    have hpresent : isPresent e = true := h
    have hkey : e &&& protKeyMask = keyBits key &&& protKeyMask := hfield
    rw [Setter.read, getProtKey, if_pos hpresent, hkey, keyBits_field]
    rfl
  | _ => exact congrArg Reading.flag (guarded_test (by decide) h hfield)

/-- The constructor stores the argument in the field of the setter. -/
theorem ofConfig_field (config : PtEntry) :
    ofConfig (s.into config) &&& s.field = s.value &&& s.field := by
  cases s with
  | setPhysAddr addr => exact ofConfig_and_addrMask _
  | setProtKey key => exact ofConfig_and_protKeyMask _
  | _ =>
    refine field_of_bit (by decide) ?_
    simp (disch := decide) only [getLsbD_ofConfig, Setter.into, addrMask, protKeyMask,
      getLsbD_maskBits]
    simp

theorem Setter.Readable.setBits (h : s.Readable raw) :
    s.Readable (Core.setBits raw s.field s.value) := by
  cases s with
  | setPresent value => trivial
  | _ =>
    have hpresent : raw.getLsbD 0 = true := isPresent_eq.symm.trans h
    exact isPresent_eq.trans (getLsbD_setBits_of_raised hpresent
      (getLsbD_maskBits_below (by decide) (by decide)))

/-- A call is sound exactly if the argument fits into the field of the setter. -/
theorem sound_iff : Sound s raw (call raw invl s).raw ↔ s.Fits raw := by
  rw [raw_call, fits_iff]
  constructor
  · intro h
    exact setBits_frame_iff.mp h.frame
  · intro h
    exact ⟨setBits_frame_iff.mpr h, fun hread => read_eq hread.setBits setBits_and_clr,
      fun config hread => read_eq hread (ofConfig_field config)⟩

end Pte

namespace Directory

/-- Binary logarithm of the size of a large page. -/
def lpageShift : Level → ℕ
  | .pde => 21
  | .pdpte => 30

namespace Setter

/-- The bits that belong to a setter. -/
def field (level : Level) : Setter → BitVec 64
  | setPresent _ => prMask
  | setWriteable _ => rwMask
  | setUsermode _ => usMask
  | setPwt _ => pwtMask
  | setPcd _ => pcdMask
  | setAccessed _ => aMask
  | setDirty _ => dMask
  | setGlobal _ => glMask
  | setPat _ => patMask
  | setExecDisable _ => xdMask
  | setProtKey _ => protKeyMask
  | setTable _ => addrMask
  | setPage _ => lpageMask level

/-- The bits that a setter raises. -/
def value (level : Level) : Setter → BitVec 64
  | setTable addr | setPage addr => addr
  | setProtKey key => keyBits key
  | s@(setPresent value) | s@(setWriteable value) | s@(setUsermode value) | s@(setPwt value)
  | s@(setPcd value) | s@(setAccessed value) | s@(setDirty value) | s@(setGlobal value)
  | s@(setPat value) | s@(setExecDisable value) => times value (s.field level)

/-- Whether the setter applies to an entry at all. -/
def applies (raw : BitVec 64) : Setter → Bool
  | setDirty _ | setGlobal _ | setPat _ | setProtKey _ | setPage _ => isLarge raw
  | setTable _ => !isLarge raw
  | _ => true

/-- The matching getter. -/
def read (level : Level) (raw : BitVec 64) : Setter → Reading
  | setPresent _ => .flag (isPresent raw)
  | setWriteable _ => .flag (isWriteable raw)
  | setUsermode _ => .flag (isUsermode raw)
  | setPwt _ => .flag (isPwt raw)
  | setPcd _ => .flag (isPcd raw)
  | setAccessed _ => .flag (isAccessed raw)
  | setDirty _ => .flag (isDirty raw)
  | setGlobal _ => .flag (isGlobal raw)
  | setPat _ => .flag (isPat raw)
  | setExecDisable _ => .flag (isExecDisable raw)
  | setProtKey _ => .key (getProtKey raw)
  | setTable _ => .address (getTable raw)
  | setPage _ => .address (getPage level raw)

/-- The argument reduced to the field. -/
def reduced (level : Level) : Setter → Reading
  | setProtKey key => .key (some (reducedKey key))
  | setTable addr => .address (some (alignedAddress 12 addr))
  | setPage addr => .address (some (alignedAddress (lpageShift level) addr))
  | setPresent value | setWriteable value | setUsermode value | setPwt value | setPcd value
  | setAccessed value | setDirty value | setGlobal value | setPat value
  | setExecDisable value => .flag value

/-- The description with the argument in the field of the setter. -/
def into (config : DirectoryEntry) : Setter → DirectoryEntry
  | setPresent value => { config with present := value }
  | setWriteable value => { config with readwrite := value }
  | setUsermode value => { config with usermode := value }
  | setPwt value => { config with pwt := value }
  | setPcd value => { config with pcd := value }
  | setAccessed value => { config with accessed := value }
  | setDirty value => { config with dirty := value }
  | setGlobal value => { config with global := value }
  | setPat value => { config with pat := value }
  | setExecDisable value => { config with execute := value }
  | setProtKey key => { config with key := key }
  | setTable addr | setPage addr => { config with address := addr }

/-- Whether the matching getter has something to read: the entry is present, and large or not
where the setter requires it. The present bit itself requires neither. -/
def Readable (raw : BitVec 64) : Setter → Prop
  | setPresent _ => True
  | setDirty _ | setGlobal _ | setPat _ | setProtKey _ | setPage _ => isLarge raw = true
  | setTable _ => isPresent raw = true ∧ isLarge raw = false
  | _ => isPresent raw = true

/-- The argument has no stray bits: an address raises none outside its field, and bit four of a
key is clear, unless the entry has the bit in question already or the setter does not apply. -/
def Fits (level : Level) (raw : BitVec 64) : Setter → Prop
  | setTable addr => isLarge raw = false → addr &&& ~~~addrMask &&& ~~~raw = 0
  | setPage addr => isLarge raw = true → addr &&& ~~~lpageMask level &&& ~~~raw = 0
  | setProtKey key => isLarge raw = true → key.getLsbD 4 = true → raw.getLsbD 63 = true
  | _ => True

end Setter

/-- A call has changed nothing outside the field of the setter, and the getter returns the
reduced argument, for the entry as for every one built from a description with it. -/
structure Sound (level : Level) (s : Setter) (raw raw' : BitVec 64) : Prop where
  /-- No other bit has changed. -/
  frame : raw' &&& ~~~s.field level = raw &&& ~~~s.field level
  /-- The getter returns the reduced argument. -/
  reads : s.Readable raw → s.read level raw' = s.reduced level
  /-- So it does for an entry built to refer to a table. -/
  builtTable : ∀ config, s.Readable (toTable level (s.into config)) →
    s.read level (toTable level (s.into config)) = s.reduced level
  /-- So it does for an entry built to map a large page. -/
  builtPage : ∀ config, s.Readable (toPage level (s.into config)) →
    s.read level (toPage level (s.into config)) = s.reduced level

variable {level : Level} {raw e : BitVec 64} {s : Setter} {invl : TlbInvalidation} {i : ℕ}

theorem raw_updateIf (condition : Bool) (clr set : BitVec 64) :
    (updateIf level raw condition clr set invl).raw =
      if condition then setBits raw clr set else raw := by
  unfold updateIf
  split <;> rfl

theorem raw_call : (call level raw invl s).raw =
    if s.applies raw then setBits raw (s.field level) (s.value level) else raw := by
  cases s <;> exact raw_updateIf _ _ _

/-- Stray bits are those outside the field. -/
theorem fits_iff : s.Fits level raw ↔
    (s.applies raw = true → s.value level &&& ~~~s.field level &&& ~~~raw = 0) := by
  cases s with
  | setTable addr => simp only [Setter.Fits, Setter.applies, Bool.not_eq_true', Setter.value,
      Setter.field]
  | setPage addr => exact Iff.rfl
  | setProtKey key => exact imp_congr_right fun _ => keyBits_clean_iff.symm
  | _ => exact iff_of_true trivial fun _ => times_clean _ _

theorem isPresent_of_isLarge (h : isLarge raw = true) : isPresent raw = true :=
  (Bool.and_eq_true _ _ ▸ h).1

theorem lpageMask_eq : lpageMask level = maskBits (52 - lpageShift level) (lpageShift level) := by
  cases level <;> rfl

/-- The getters read the reduced argument from whatever entry has the raised bits in the field
of the setter. -/
theorem read_eq (h : s.Readable e)
    (hfield : e &&& s.field level = s.value level &&& s.field level) :
    s.read level e = s.reduced level := by
  cases s with
  | setPresent value => exact congrArg Reading.flag (test_of_field (by decide) hfield)
  | setProtKey key =>
    have hlarge : isLarge e = true := h
    have hkey : e &&& protKeyMask = keyBits key &&& protKeyMask := hfield
    rw [Setter.read, getProtKey, hlarge, isPresent_of_isLarge hlarge, hkey, keyBits_field]
    rfl
  | setTable addr =>
    obtain ⟨hpresent, hlarge⟩ : isPresent e = true ∧ isLarge e = false := h
    have haddr : e &&& addrMask = addr &&& addrMask := hfield
    rw [Setter.read, getTable, hlarge, hpresent, haddr, addrMask, and_maskBits _ (by decide)]
    rfl
  | setPage addr =>
    have hlarge : isLarge e = true := h
    have haddr : e &&& lpageMask level = addr &&& lpageMask level := hfield
    rw [Setter.read, getPage, hlarge, isPresent_of_isLarge hlarge, haddr, lpageMask_eq,
      and_maskBits _ (by cases level <;> decide)]
    rfl
  | _ => exact congrArg Reading.flag (guarded_test (by decide) h hfield)

theorem isLarge_eq : isLarge raw = (raw.getLsbD 0 && raw.getLsbD 7) := by
  rw [isLarge, isPresent_eq, psMask, test_maskBits]

/-- The address bits of a large page. -/
theorem mem_lpageMask (h : (lpageMask level).getLsbD i = true) : 21 ≤ i ∧ i < 52 := by
  cases level with
  | pde => exact mem_maskBits (by decide) h
  | pdpte =>
    obtain ⟨hlow, hhigh⟩ := mem_maskBits (by decide) h
    omega

theorem getLsbD_lpageMask_below (hi : i < 21) : (lpageMask level).getLsbD i = false :=
  Bool.eq_false_iff.mpr fun h => absurd (mem_lpageMask h).1 (by omega)

/-- No setter owns the page-size bit. -/
theorem Setter.field_ps (s : Setter) : (s.field level).getLsbD 7 = false := by
  cases s with
  | setPage _ => exact getLsbD_lpageMask_below (by decide)
  | _ =>
    simp only [field]
    decide

/-- A setter applies to every entry whose getter has something to read. -/
theorem applies_of_readable (h : s.Readable raw) : s.applies raw = true := by
  cases s with
  | setTable addr =>
    rw [Setter.applies, h.2]
    rfl
  | setDirty _ | setGlobal _ | setPat _ | setProtKey _ | setPage _ => exact h
  | _ => rfl

/-- Whether the getter has something to read does not change. -/
theorem Setter.Readable.setBits (h : s.Readable raw)
    (hclean : s.value level &&& ~~~s.field level &&& ~~~raw = 0) :
    s.Readable (Core.setBits raw (s.field level) (s.value level)) := by
  have hps := getLsbD_setBits_of_clean hclean s.field_ps
  have hpresent (hfield : (s.field level).getLsbD 0 = false) :
      isPresent (Core.setBits raw (s.field level) (s.value level)) = isPresent raw := by
    rw [isPresent_eq, isPresent_eq, getLsbD_setBits_of_clean hclean hfield]
  have hlarge (hfield : (s.field level).getLsbD 0 = false) :
      isLarge (Core.setBits raw (s.field level) (s.value level)) = isLarge raw := by
    rw [isLarge_eq, isLarge_eq, getLsbD_setBits_of_clean hclean hfield, hps]
  have hbelow {bits offset : ℕ} (hbits : bits ≤ 64) (hoffset : 0 < offset) :
      (maskBits bits offset).getLsbD 0 = false := getLsbD_maskBits_below hbits hoffset
  cases s with
  | setPresent _ => trivial
  | setTable addr =>
    exact ⟨(hpresent (hbelow (by decide) (by decide))).trans h.1,
      (hlarge (hbelow (by decide) (by decide))).trans h.2⟩
  | setPage addr => exact (hlarge (getLsbD_lpageMask_below (by decide))).trans h
  | setDirty _ | setGlobal _ | setPat _ | setProtKey _ =>
    exact (hlarge (hbelow (by decide) (by decide))).trans h
  | _ => exact (hpresent (hbelow (by decide) (by decide))).trans h

/-- The address and the key of a description. -/
def payload (level : Level) (config : DirectoryEntry) : BitVec 64 :=
  if config.pagesize then
    (config.address &&& lpageMask level) ||| (keyBits config.key &&& protKeyMask)
  else config.address &&& addrMask

theorem getLsbD_ofConfig (config : DirectoryEntry) : (ofConfig level config).getLsbD i =
    (config.present && decide (i = 0) || config.readwrite && decide (i = 1) ||
      config.usermode && decide (i = 2) || config.pwt && decide (i = 3) ||
      config.pcd && decide (i = 4) || config.accessed && decide (i = 5) ||
      config.dirty && decide (i = 6) || config.pagesize && decide (i = 7) ||
      config.global && decide (i = 8) || config.pat && decide (i = 12) ||
      config.execute && decide (i = 63) || (payload level config).getLsbD i) := by
  simp (disch := decide) only [ofConfig, BitVec.getLsbD_or, prMask, rwMask, usMask, pwtMask,
    pcdMask, aMask, dMask, psMask, glMask, patMask, xdMask, getLsbD_times]
  rfl

/-- The flags below the address bits and the execute-disable bit are not part of the payload. -/
theorem getLsbD_payload (config : DirectoryEntry) (h : i < 12 ∨ i = 63) :
    (payload level config).getLsbD i = false := by
  have haddr : addrMask.getLsbD i = false := by
    rcases h with h | rfl
    · exact getLsbD_maskBits_below (by decide) h
    · decide
  have hpage : (lpageMask level).getLsbD i = false := by
    rcases h with h | rfl
    · exact getLsbD_lpageMask_below (by omega)
    · cases level <;> decide
  have hkey : protKeyMask.getLsbD i = false := by
    rcases h with h | rfl
    · exact getLsbD_maskBits_below (by decide) (by omega)
    · decide
  unfold payload
  split
  · rw [BitVec.getLsbD_or, BitVec.getLsbD_and, BitVec.getLsbD_and, hpage, hkey]
    simp
  · rw [BitVec.getLsbD_and, haddr, Bool.and_false]

/-- From the address bits on, only the attribute bit of a large page and the execute-disable bit
are not part of the payload. -/
theorem getLsbD_ofConfig_high (config : DirectoryEntry) (h : 12 ≤ i) (hxd : i ≠ 63)
    (hpat : i = 12 → config.pat = false) :
    (ofConfig level config).getLsbD i = (payload level config).getLsbD i := by
  have hflag : (config.pat && decide (i = 12)) = false := by
    by_cases hi : i = 12
    · simp [hi, hpat hi]
    · simp [hi]
  rw [getLsbD_ofConfig, hflag]
  simp [show i ≠ 0 by omega, show i ≠ 1 by omega, show i ≠ 2 by omega, show i ≠ 3 by omega,
    show i ≠ 4 by omega, show i ≠ 5 by omega, show i ≠ 6 by omega, show i ≠ 7 by omega,
    show i ≠ 8 by omega, hxd]

/-- A field of the payload is read back through its mask. -/
theorem ofConfig_and_mask {config : DirectoryEntry} {mask value : BitVec 64}
    (hmask : ∀ j, mask.getLsbD j = true → 12 ≤ j ∧ j ≠ 63 ∧ (j = 12 → config.pat = false))
    (hvalue : ∀ j, mask.getLsbD j = true →
      (payload level config).getLsbD j = value.getLsbD j) :
    ofConfig level config &&& mask = value &&& mask := by
  refine and_eq_of_field fun j hj => ?_
  obtain ⟨hlow, hxd, hpat⟩ := hmask j hj
  rw [getLsbD_ofConfig_high config hlow hxd hpat, hvalue j hj]

theorem isPresent_ofConfig (config : DirectoryEntry) :
    isPresent (ofConfig level config) = config.present := by
  rw [isPresent_eq, getLsbD_ofConfig, getLsbD_payload config (.inl (by decide))]
  simp

/-- Whether a built entry maps a large page. -/
theorem isLarge_ofConfig (config : DirectoryEntry) :
    isLarge (ofConfig level config) = (config.present && config.pagesize) := by
  rw [isLarge_eq, getLsbD_ofConfig, getLsbD_ofConfig, getLsbD_payload config (.inl (by decide)),
    getLsbD_payload config (.inl (by decide))]
  simp

/-- The constructor of a table entry stores the argument in the field of the setter. -/
theorem toTable_field (config : DirectoryEntry) (h : s.Readable (toTable level (s.into config))) :
    toTable level (s.into config) &&& s.field level = s.value level &&& s.field level := by
  have hsmall (config : DirectoryEntry) : isLarge (toTable level config) = false := by
    rw [toTable, isLarge_ofConfig, Bool.and_false]
  cases s with
  | setDirty _ | setGlobal _ | setPat _ | setProtKey _ | setPage _ =>
    exact absurd h (by simp [Setter.Readable, hsmall])
  | setTable addr =>
    refine ofConfig_and_mask (fun j hj => ?_) (fun j hj => ?_)
    · obtain ⟨hlow, hhigh⟩ := mem_maskBits (by decide) hj
      exact ⟨hlow, by omega, fun _ => rfl⟩
    · rw [payload, if_neg (by simp), BitVec.getLsbD_and, show addrMask.getLsbD j = true from hj,
        Bool.and_true]
      rfl
  | _ =>
    refine field_of_bit (by decide) ?_
    rw [toTable, getLsbD_ofConfig, getLsbD_payload _ (by decide)]
    simp [Setter.into]

/-- The bits of an entry that maps a large page, apart from its flags. -/
theorem getLsbD_payload_large {config : DirectoryEntry} (h : config.pagesize = true) :
    (payload level config).getLsbD i = (config.address.getLsbD i && (lpageMask level).getLsbD i ||
      (keyBits config.key).getLsbD i && protKeyMask.getLsbD i) := by
  rw [payload, if_pos h, BitVec.getLsbD_or, BitVec.getLsbD_and, BitVec.getLsbD_and]

/-- The constructor of a large-page entry stores the argument in the field of the setter. -/
theorem toPage_field (config : DirectoryEntry) (h : s.Readable (toPage level (s.into config))) :
    toPage level (s.into config) &&& s.field level = s.value level &&& s.field level := by
  cases s with
  | setTable addr =>
    obtain ⟨hpresent, hlarge⟩ := h
    rw [toPage, isPresent_ofConfig] at hpresent
    rw [toPage, isLarge_ofConfig, Bool.and_true, hpresent] at hlarge
    exact absurd hlarge (by decide)
  | setPage addr =>
    refine ofConfig_and_mask (fun j hj => ?_) (fun j hj => ?_)
    · have := mem_lpageMask hj
      exact ⟨by omega, by omega, by omega⟩
    · have hpage : (lpageMask level).getLsbD j = true := hj
      have hkey : protKeyMask.getLsbD j = false :=
        getLsbD_maskBits_below (by decide) (by have := mem_lpageMask hj; omega)
      rw [getLsbD_payload_large rfl, hpage, hkey]
      simp [Setter.into, Setter.value]
  | setProtKey key =>
    refine ofConfig_and_mask (fun j hj => ?_) (fun j hj => ?_)
    · have := mem_maskBits (by decide) hj
      exact ⟨by omega, by omega, by omega⟩
    · have hkey : protKeyMask.getLsbD j = true := hj
      have hpage : (lpageMask level).getLsbD j = false := by
        refine Bool.eq_false_iff.mpr fun hpage => ?_
        have hlow := (mem_maskBits (by decide) hj).1
        have hhigh := (mem_lpageMask hpage).2
        omega
      rw [getLsbD_payload_large rfl, hpage, hkey]
      simp [Setter.into, Setter.value]
  | setPat value =>
    have hpage : (lpageMask level).getLsbD 12 = false := getLsbD_lpageMask_below (by decide)
    have hkey : protKeyMask.getLsbD 12 = false := by decide
    refine field_of_bit (by decide) ?_
    rw [toPage, getLsbD_ofConfig, getLsbD_payload_large rfl, hpage, hkey]
    simp [Setter.into]
  | _ =>
    refine field_of_bit (by decide) ?_
    rw [toPage, getLsbD_ofConfig, getLsbD_payload _ (by decide)]
    simp [Setter.into]

/-- A call is sound exactly if the argument fits into the field of the setter. -/
theorem sound_iff : Sound level s raw (call level raw invl s).raw ↔ s.Fits level raw := by
  rw [raw_call, fits_iff]
  by_cases happlies : s.applies raw = true
  · rw [if_pos happlies, imp_iff_right happlies]
    constructor
    · intro h
      exact setBits_frame_iff.mp h.frame
    · intro h
      exact ⟨setBits_frame_iff.mpr h, fun hread => read_eq (hread.setBits h) setBits_and_clr,
        fun config hread => read_eq hread (toTable_field config hread),
        fun config hread => read_eq hread (toPage_field config hread)⟩
  · rw [if_neg happlies]
    refine iff_of_true ⟨rfl, fun hread => absurd (applies_of_readable hread) happlies,
      fun config hread => read_eq hread (toTable_field config hread),
      fun config hread => read_eq hread (toPage_field config hread)⟩ fun h => absurd h happlies

end Directory

namespace EntrySetter

/-- A call has changed nothing outside the field of the setter, and the getter returns the
reduced argument. -/
def Sound (raw raw' : BitVec 64) : EntrySetter → Prop
  | pte s => Pte.Sound s raw raw'
  | directory level s => Directory.Sound level s raw raw'

/-- The argument has no stray bits. -/
def Fits (raw : BitVec 64) : EntrySetter → Prop
  | pte s => s.Fits raw
  | directory level s => s.Fits level raw

end EntrySetter

/-- In every class a call of a setter is isolated in its field, and read back as the argument
reduced to the field, exactly if the argument has no stray bits. -/
theorem setters_isolated_iff (raw : BitVec 64) (invl : TlbInvalidation) (s : EntrySetter) :
    s.Sound raw (s.call raw invl).raw ↔ s.Fits raw := by
  cases s with
  | pte s => exact Pte.sound_iff
  | directory level s => exact Directory.sound_iff

/-- A key above fifteen disables execution, an unaligned address changes the flags of a page, and
the address of a small page changes the attribute bit of a large one. -/
theorem stray_bits_spill :
    ((EntrySetter.pte (.setProtKey 16#8)).call 0x1#64 .no).raw = 0x8000000000000001#64 ∧
      ((EntrySetter.pte (.setPhysAddr 0x1006#64)).call 0x1#64 .no).raw = 0x1007#64 ∧
      ((EntrySetter.directory .pde (.setPage 0x201000#64)).call 0x81#64 .no).raw =
        0x201081#64 := by
  decide

end Toyos.Paging

/-
Which indices the interpreter uses. Two of its four arrays are never left: the display, since both
loops of DRW stop at the edge, and the stack, since CALL and RET check `sp`. The memory is left as
soon as a program takes `pc` to the last byte or points `I` too far up: neither is ever checked.
-/
import SysInC.Chip8

set_option autoImplicit false

namespace SysInC.Chip8

open SysInC.PartialRun

/-- The cells at `I` that an instruction `FXkk` reads or writes. -/
def misc_reach (x : Fin V_REG_COUNT) (kk : UInt8) : ℕ :=
  if kk.toNat = 0x33 then 3 else if kk.toNat = 0x55 ∨ kk.toNat = 0x65 then x + 1 else 0

/-- The rows of its sprite that DRW reads. -/
def draw_reach (n : ℕ) (vy : UInt8) : ℕ := min n (GFX_HEIGHT - vy.toNat % GFX_HEIGHT)

/-- The cells at `I` that an instruction reads or writes. -/
def reach (cpu : Chip8) (opcode : UInt16) : ℕ :=
  if (opcode &&& 0xF000).toNat = 0xD000 then
    draw_reach (opcode_n opcode) (cpu.V (opcode_y opcode))
  else if (opcode &&& 0xF000).toNat = 0xF000 then
    misc_reach (opcode_x opcode) (opcode_kk opcode)
  else 0

/-- `n` cells at `I` are in memory, if there are any. -/
def CellsInMemory (cpu : Chip8) (n : ℕ) : Prop := n = 0 ∨ cpu.I.toNat + n ≤ MEMORY_SIZE

/-- The two bytes at `pc` are in memory, and so are the cells at `I`, if the instruction has any. -/
def InMemory (cpu : Chip8) : Prop :=
  cpu.pc.toNat + 1 < MEMORY_SIZE ∧
    ∀ opcode, fetch cpu = some opcode → CellsInMemory cpu (reach cpu opcode)

/-- The condition of a step: there is one on cycles only. -/
def StepInMemory (cpu : Chip8) : Event → Prop
  | .cycle _ => InMemory cpu
  | .timers => True
  | .render_screen => True
  | .keys _ => True

def StackOk (cpu : Chip8) : Prop := cpu.sp.toNat ≤ STACK_SIZE

/-- What no loop of an instruction changes. -/
def Keeps (start cpu : Chip8) : Prop := cpu.I = start.I ∧ cpu.sp = start.sp

/-! ## Instructions -/

theorem exec_sys_returns (opcode : UInt16) {cpu : Chip8} (h : StackOk cpu) :
    Returns (exec_sys opcode cpu) True StackOk := by
  unfold exec_sys
  split
  · exact Returns.pure h
  split
  · split
    · next hsp =>
        have hpos : 0 < cpu.sp.toNat := hsp
        have hdec : (cpu.sp - 1).toNat = cpu.sp.toNat - 1 :=
          UInt16.toNat_sub_of_le cpu.sp 1 (Nat.succ_le_of_lt hpos)
        have hlt : (cpu.sp - 1).toNat < STACK_SIZE := by
          rw [hdec]
          exact (Nat.sub_lt hpos Nat.one_pos).trans_le h
        refine ((Returns.peek cpu.stack _).bind fun pc _ => Returns.pure ?_).congr
          (and_iff_left trivial |>.trans (iff_true_intro hlt))
        exact Nat.le_of_lt hlt
    · exact Returns.pure h
  · exact Returns.pure h

theorem exec_call_returns (nnn : UInt16) {cpu : Chip8} (h : StackOk cpu) :
    Returns (exec_call nnn cpu) True StackOk := by
  unfold exec_call
  split
  · next hlt =>
      have hinc : (cpu.sp + 1).toNat = cpu.sp.toNat + 1 := by
        have : cpu.sp.toNat < 16 := hlt
        rw [UInt16.toNat_add]
        exact Nat.mod_eq_of_lt (by simp; omega)
      refine ((Returns.poke cpu.stack _ _).bind fun stack _ => Returns.pure ?_).congr
        (and_iff_left trivial |>.trans (iff_true_intro hlt))
      exact hinc.le.trans hlt
  · exact Returns.pure h

theorem Keeps.stack_ok {start cpu : Chip8} (h : Keeps start cpu) (hs : StackOk start) :
    StackOk cpu := by
  rw [StackOk, h.2]
  exact hs

/-- The pixel is on the screen, whatever the registers hold. -/
theorem draw_pixel_returns {vx vy row col : ℕ} (hrow : vy + row < GFX_HEIGHT)
    (hcol : vx + col < GFX_WIDTH) (sprite_byte : UInt8) {start cpu : Chip8}
    (h : Keeps start cpu) :
    Returns (draw_pixel vx vy row sprite_byte cpu col) True (Keeps start) := by
  have hidx : (vy + row) * GFX_WIDTH + (vx + col) < GFX_WIDTH * GFX_HEIGHT := by
    dsimp only [GFX_WIDTH, GFX_HEIGHT] at *
    omega
  unfold draw_pixel
  split
  · refine ((Returns.peek cpu.gfx _).bind fun lit _ =>
      (Returns.poke cpu.gfx _ _).bind fun gfx _ => Returns.pure ?_).congr
      (iff_true_intro ⟨hidx, hidx, trivial⟩)
    split
    · exact h
    · exact h
  · exact Returns.pure h

theorem draw_row_returns {vx vy row : ℕ} (hrow : vy + row < GFX_HEIGHT) {start cpu : Chip8}
    (h : Keeps start cpu) :
    Returns (draw_row vx vy cpu row) (start.I.toNat + row < MEMORY_SIZE) (Keeps start) := by
  rw [draw_row, takeWhile_range, h.1]
  refine ((Returns.peek cpu.memory _).bind fun sprite_byte _ => ?_).congr (and_iff_left trivial)
  -- the columns that the loop reaches are on the screen
  have hcols : ∀ col ∈ List.range (min 8 (GFX_WIDTH - vx)), vx + col < GFX_WIDTH :=
    (forall_range_lt vx _ GFX_WIDTH).mpr (by omega)
  have hloop := Returns.foldlM (fun col hmem (s : Chip8) (hs : Keeps start s) =>
    draw_pixel_returns hrow (hcols col hmem) sprite_byte hs) h
  exact hloop.congr (iff_true_intro fun _ _ => trivial)

theorem exec_draw_returns (n : ℕ) (x y : Fin V_REG_COUNT) {cpu : Chip8} (h : StackOk cpu) :
    Returns (exec_draw n x y cpu) (CellsInMemory cpu (draw_reach n (cpu.V y))) StackOk := by
  rw [exec_draw, takeWhile_range, draw_reach]
  generalize (cpu.V x).toNat % GFX_WIDTH = vx
  generalize (cpu.V y).toNat % GFX_HEIGHT = vy
  have hrows : ∀ row ∈ List.range (min n (GFX_HEIGHT - vy)), vy + row < GFX_HEIGHT :=
    (forall_range_lt vy _ GFX_HEIGHT).mpr (by omega)
  have hrow (row : ℕ) (hmem : row ∈ List.range (min n (GFX_HEIGHT - vy))) (s : Chip8)
      (hs : Keeps cpu s) :
      Returns (draw_row vx vy s row) (cpu.I.toNat + row < MEMORY_SIZE) (Keeps cpu) :=
    draw_row_returns (hrows row hmem) hs
  have hloop := Returns.foldlM hrow (show Keeps cpu (set_V cpu 0xF 0) from ⟨rfl, rfl⟩)
  refine (hloop.map fun s hs => ?_).congr (forall_range_lt cpu.I.toNat _ MEMORY_SIZE)
  exact hs.stack_ok h

theorem store_bcd_returns (v : UInt8) {cpu : Chip8} (h : StackOk cpu) :
    Returns (store_bcd v cpu) (CellsInMemory cpu 3) StackOk := by
  refine ((Returns.poke _ _ _).bind fun m _ => (Returns.poke m _ _).bind fun m' _ =>
    (Returns.poke m' _ _).bind fun m'' _ => Returns.pure ?_).congr ?_
  · exact h
  · rw [CellsInMemory, and_true]
    dsimp only [MEMORY_SIZE]
    omega

theorem store_reg_returns {k : ℕ} (hk : k < V_REG_COUNT) {start cpu : Chip8}
    (h : Keeps start cpu) :
    Returns (store_reg cpu k) (start.I.toNat + k < MEMORY_SIZE) (Keeps start) := by
  rw [store_reg, ← h.1]
  refine ((Returns.peek _ _).bind fun v _ => (Returns.poke cpu.memory _ _).bind fun m _ =>
    Returns.pure ?_).congr ?_
  · exact h
  · simp only [hk, true_and, and_true]

theorem load_reg_returns {k : ℕ} (hk : k < V_REG_COUNT) {start cpu : Chip8}
    (h : Keeps start cpu) :
    Returns (load_reg cpu k) (start.I.toNat + k < MEMORY_SIZE) (Keeps start) := by
  rw [load_reg, ← h.1]
  refine ((Returns.peek _ _).bind fun v _ => (Returns.poke cpu.V _ _).bind fun V _ =>
    Returns.pure ?_).congr ?_
  · exact h
  · simp only [hk, and_true]

/-- The transfers FX55 and FX65: one loop with two bodies. -/
theorem transfer_returns {body : Chip8 → ℕ → Option Chip8} {cpu : Chip8}
    (hbody : ∀ k, k < V_REG_COUNT → ∀ s, Keeps cpu s →
      Returns (body s k) (cpu.I.toNat + k < MEMORY_SIZE) (Keeps cpu))
    (x : Fin V_REG_COUNT) (h : StackOk cpu) :
    Returns ((List.range (x + 1)).foldlM body cpu) (CellsInMemory cpu (x + 1)) StackOk := by
  have hk : ∀ k ∈ List.range (x.val + 1), k < V_REG_COUNT := by
    intro k hmem
    exact (Nat.lt_succ_iff.mp (List.mem_range.mp hmem)).trans_lt x.isLt
  have hloop := Returns.foldlM (fun k hmem s hs => hbody k (hk k hmem) s hs)
    (show Keeps cpu cpu from ⟨rfl, rfl⟩)
  exact hloop.imp (forall_range_lt cpu.I.toNat _ MEMORY_SIZE) fun s hs => hs.stack_ok h

@[simp] theorem set_V_sp (cpu : Chip8) (x : Fin V_REG_COUNT) (v : UInt8) :
    (set_V cpu x v).sp = cpu.sp := rfl

theorem skip_if_sp (c : Bool) (cpu : Chip8) : (skip_if c cpu).sp = cpu.sp := by
  unfold skip_if
  split <;> rfl

theorem exec_alu_sp (n : ℕ) (x y : Fin V_REG_COUNT) (cpu : Chip8) :
    (exec_alu n x y cpu).sp = cpu.sp := by
  unfold exec_alu
  split <;> rfl

theorem exec_key_sp (x : Fin V_REG_COUNT) (kk : UInt8) (cpu : Chip8) :
    (exec_key x kk cpu).sp = cpu.sp := by
  simp only [exec_key]
  split
  · exact skip_if_sp _ cpu
  split
  · exact skip_if_sp _ cpu
  · rfl

/-- An instruction that has no cells at `I` and leaves `sp` alone. -/
theorem returns_of_sp {cpu s : Chip8} (hsp : s.sp = cpu.sp) (h : StackOk cpu) :
    Returns (some s) (CellsInMemory cpu 0) StackOk := by
  refine (Returns.pure ?_).congr (iff_of_true trivial (Or.inl rfl))
  rw [StackOk, hsp]
  exact h

/-! ## The cycle -/

theorem exec_misc_returns (x : Fin V_REG_COUNT) (kk : UInt8) {cpu : Chip8} (h : StackOk cpu) :
    Returns (exec_misc x kk cpu) (CellsInMemory cpu (misc_reach x kk)) StackOk := by
  -- the instructions without cells keep `sp`
  have hnone (s : Chip8) (hsp : s.sp = cpu.sp) (h33 : kk.toNat ≠ 0x33) (h55 : kk.toNat ≠ 0x55)
      (h65 : kk.toNat ≠ 0x65) :
      Returns (some s) (CellsInMemory cpu (misc_reach x kk)) StackOk := by
    rw [misc_reach, if_neg h33, if_neg (by rintro (h | h) <;> contradiction)]
    exact returns_of_sp hsp h
  unfold exec_misc
  split
  · next hkk => exact hnone _ rfl (by omega) (by omega) (by omega)
  · next hkk =>
      split
      · exact hnone _ rfl (by omega) (by omega) (by omega)
      · exact hnone _ rfl (by omega) (by omega) (by omega)
  · next hkk => exact hnone _ rfl (by omega) (by omega) (by omega)
  · next hkk => exact hnone _ rfl (by omega) (by omega) (by omega)
  · next hkk => exact hnone _ rfl (by omega) (by omega) (by omega)
  · next hkk => exact hnone _ rfl (by omega) (by omega) (by omega)
  · next hkk =>
      rw [misc_reach, if_pos hkk]
      exact store_bcd_returns (cpu.V x) h
  · next hkk =>
      rw [misc_reach, if_neg (by omega), if_pos (Or.inl hkk)]
      exact transfer_returns (fun k hk s hs => store_reg_returns hk hs) x h
  · next hkk =>
      rw [misc_reach, if_neg (by omega), if_pos (Or.inr hkk)]
      exact transfer_returns (fun k hk s hs => load_reg_returns hk hs) x h
  · next h33 h55 h65 => exact hnone _ rfl h33 h55 h65

theorem execute_returns (rand : UInt8) (opcode : UInt16) {cpu : Chip8} (h : StackOk cpu) :
    Returns (execute rand opcode cpu) (CellsInMemory cpu (reach cpu opcode)) StackOk := by
  -- only two of the sixteen groups have cells at `I`
  have hnone {p : Option Chip8} (hp : Returns p True StackOk)
      (hD : (opcode &&& 0xF000).toNat ≠ 0xD000) (hF : (opcode &&& 0xF000).toNat ≠ 0xF000) :
      Returns p (CellsInMemory cpu (reach cpu opcode)) StackOk := by
    rw [reach, if_neg hD, if_neg hF]
    exact hp.congr (iff_of_true trivial (Or.inl rfl))
  have hsp (s : Chip8) (hs : s.sp = cpu.sp) : Returns (some s) True StackOk :=
    Returns.pure (by rw [StackOk, hs]; exact h)
  unfold execute
  split
  · next hop => exact hnone (exec_sys_returns opcode h) (by omega) (by omega)
  · next hop => exact hnone (hsp _ rfl) (by omega) (by omega)
  · next hop => exact hnone (exec_call_returns _ h) (by omega) (by omega)
  · next hop => exact hnone (hsp _ (skip_if_sp _ cpu)) (by omega) (by omega)
  · next hop => exact hnone (hsp _ (skip_if_sp _ cpu)) (by omega) (by omega)
  · next hop => exact hnone (hsp _ (skip_if_sp _ cpu)) (by omega) (by omega)
  · next hop => exact hnone (hsp _ rfl) (by omega) (by omega)
  · next hop => exact hnone (hsp _ rfl) (by omega) (by omega)
  · next hop => exact hnone (hsp _ (exec_alu_sp _ _ _ cpu)) (by omega) (by omega)
  · next hop => exact hnone (hsp _ (skip_if_sp _ cpu)) (by omega) (by omega)
  · next hop => exact hnone (hsp _ rfl) (by omega) (by omega)
  · next hop => exact hnone (hsp _ rfl) (by omega) (by omega)
  · next hop => exact hnone (hsp _ rfl) (by omega) (by omega)
  · next hop =>
      rw [reach, if_pos hop]
      exact exec_draw_returns _ _ _ h
  · next hop => exact hnone (hsp _ (exec_key_sp _ _ cpu)) (by omega) (by omega)
  · next hop =>
      rw [reach, if_neg (by omega), if_pos hop]
      exact exec_misc_returns _ _ h
  · exact hnone (hsp _ rfl) (by assumption) (by assumption)

/-- The opcode is read when its second byte is in memory. -/
theorem fetch_returns (cpu : Chip8) :
    Returns (fetch cpu) (cpu.pc.toNat + 1 < MEMORY_SIZE) fun _ => True := by
  refine ((Returns.peek cpu.memory _).bind fun hi _ => (Returns.peek cpu.memory _).bind fun lo _ =>
    Returns.pure trivial).congr ?_
  rw [and_true]
  dsimp only [MEMORY_SIZE]
  omega

/-- **One cycle.** The condition of its fetch is on `pc`, that of its instruction on `I`; an
instruction reads `I` and the registers as they were before `pc` moved on. -/
theorem chip8_cycle_returns (rand : UInt8) {cpu : Chip8} (h : StackOk cpu) :
    Returns (chip8_cycle rand cpu) (InMemory cpu) StackOk := by
  have hexec (opcode : UInt16) : Returns (execute rand opcode { cpu with pc := cpu.pc + 2 })
      (CellsInMemory cpu (reach cpu opcode)) StackOk :=
    have hnext : StackOk { cpu with pc := cpu.pc + 2 } := h
    execute_returns rand opcode hnext
  have hfetch := fetch_returns cpu
  constructor
  · rintro ⟨hpc, hI⟩
    obtain ⟨opcode, hop⟩ := hfetch.1 hpc
    obtain ⟨s, hs⟩ := (hexec opcode).1 (hI opcode hop)
    exact ⟨s, by rw [chip8_cycle, hop, Option.bind_some, hs]⟩
  · intro s hs
    obtain ⟨opcode, hop, hs⟩ := Option.bind_eq_some_iff.mp hs
    have hres := (hexec opcode).2 s hs
    refine ⟨⟨(hfetch.2 opcode hop).1, fun op' hop' => ?_⟩, hres.2⟩
    rw [hop] at hop'
    exact Option.some.inj hop' ▸ hres.1

theorem map_key_sp (typed : List Char) (cpu : Chip8) : (typed.foldl map_key cpu).sp = cpu.sp := by
  induction typed generalizing cpu with
  | nil => rfl
  | cons c typed ih =>
      rw [List.foldl_cons, ih, map_key]
      split <;> rfl

theorem step_returns (cpu : Chip8) (e : Event) (h : StackOk cpu) :
    Returns (step cpu e) (StepInMemory cpu e) StackOk := by
  cases e with
  | cycle rand => exact chip8_cycle_returns rand h
  | timers => exact Returns.pure h
  | render_screen => exact Returns.pure h
  | keys typed =>
      refine Returns.pure ?_
      rw [StackOk, map_key_sp]
      exact h

/-- **Where the interpreter is memory safe.** From a loaded ROM on, a run never leaves an array, and
its stack pointer stays within the stack, exactly when at each cycle the two bytes at `pc` and the
cells at `I` that the instruction there uses are in memory. -/
theorem memory_safe_iff (file : List UInt8) (cpu : Chip8) (events : List Event)
    (hload : chip8_load_rom chip8_init file = some cpu) :
    (∃ s, run cpu events = some s ∧ s.sp.toNat ≤ STACK_SIZE) ↔
      Along step StepInMemory cpu events := by
  have hsp : StackOk cpu := by
    obtain ⟨hsize, hload⟩ := Option.ite_none_left_eq_some.mp hload
    rw [StackOk, ← Option.some.inj hload]
    exact Nat.zero_le STACK_SIZE
  exact (Returns.run (fun s e hs => step_returns s e hs) events hsp).iff

/-- The machine with a ROM that fits. -/
def loaded (file : List UInt8) : Chip8 :=
  { chip8_init with memory := copy_in chip8_init.memory PROGRAM_START file }

/-- `LD I, 200; DRW V0, V1, 5; JP 204` -/
theorem memory_safe_iff_draw :
    Along step StepInMemory (loaded [0xA2, 0x00, 0xD0, 0x15, 0x12, 0x04])
      [.cycle 0, .cycle 0, .timers, .keys ['q'], .cycle 0] :=
  (memory_safe_iff [0xA2, 0x00, 0xD0, 0x15, 0x12, 0x04] _ _ rfl).mp ⟨_, rfl, by decide⟩

/-- `JP FFF`: the next opcode is fetched from the last byte and the one behind it. -/
theorem pc_leaves_memory :
    ¬∀ (file : List UInt8) (cpu : Chip8) (events : List Event),
      chip8_load_rom chip8_init file = some cpu →
        ∃ s, run cpu events = some s ∧ s.sp.toNat ≤ STACK_SIZE := by
  intro h
  obtain ⟨s, hs, -⟩ := h [0x1F, 0xFF] (loaded [0x1F, 0xFF]) [.cycle 0, .cycle 0] rfl
  have hnone : (run (loaded [0x1F, 0xFF]) [.cycle 0, .cycle 0]).isNone = true := by
    decide
  rw [hs] at hnone
  exact Bool.noConfusion hnone

end SysInC.Chip8

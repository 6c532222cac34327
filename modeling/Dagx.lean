import Dagx.Program
import Dagx.Completeness
import Dagx.Correctness
import Dagx.Calls
import Dagx.Skipped
import Dagx.Order
import Dagx.Allocation
import Dagx.Foreign
import Dagx.Inline
import Dagx.Isolation
import Dagx.Macro.Frame
import Dagx.Macro.Grammar
import Dagx.Macro.Routing
import Dagx.Macro.Run
import Dagx.Misread
import Dagx.Parallelism
import Dagx.Robustness
import Dagx.Schedule
import Dagx.Starvation
import Dagx.Correctness

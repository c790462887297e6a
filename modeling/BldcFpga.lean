import BldcFpga.Clocked.Run
import BldcFpga.Clocked.Counters
import BldcFpga.Clocked.Edges
import BldcFpga.Clocked.Debounce
import BldcFpga.Clocked.Incremental
import BldcFpga.Clocked.Strobe
import BldcFpga.Clocked.Framing
import BldcFpga.Clocked.Tally
import BldcFpga.Clocked.Interleaving
import BldcFpga.PatternGenerator.SixStep
import BldcFpga.PatternGenerator.Commutation1
import BldcFpga.PatternGenerator.PatternPwm
import BldcFpga.PatternGenerator.PwmOutput
import BldcFpga.PatternGenerator.PowerUp
import BldcFpga.PatternGenerator.Rotation
import BldcFpga.EdgeDetect.Filter
import BldcFpga.EdgeDetect.Wrapper
import BldcFpga.SpeedCalculation.SpeedPath
import BldcFpga.SpeedCalculation.LastMeasurement
import BldcFpga.SpeedCalculation.Pipeline
import BldcFpga.SpeedCalculation.Scale
import BldcFpga.SpeedCalculation.Channels
import BldcFpga.SimpleFilter.SimpleFilter
import BldcFpga.Adc.Restart
import BldcFpga.Adc.Recovery
import BldcFpga.Pid.Windup
import BldcFpga.Lcd.Firmware
import BldcFpga.Lcd.Display
import BldcFpga.Lcd.Port
import BldcFpga.SpeedMeasurement.TopSpeedMac
import BldcFpga.SpeedMeasurement.Reset
import BldcFpga.SpeedComputation.Windows
import BldcFpga.SpeedComputation.Accuracy
import BldcFpga.De0Nano.SpeedMeter
import BldcFpga.De0Nano.PowerUp
import BldcFpga.De0Nano.Board
import BldcFpga.De0Nano.Drive
import BldcFpga.De0Nano.DeadTime
import BldcFpga.De0Nano.Display
